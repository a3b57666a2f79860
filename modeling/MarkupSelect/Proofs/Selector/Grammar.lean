import MarkupSelect.Proofs.Text.Escape
import MarkupSelect.Selector.Compile

/-!
# The grammar of selectors

A selector as it is written, with every blank and every quote, and the alternatives that it stands
for. What may not be written cannot be built: a word is not empty and has nothing reserved in it, a
step asks for something, and blanks that join two steps are there.
-/

namespace MarkupSelect.Grammar

/-! ### Words and values -/

/-- Blanks, or nothing. -/
structure Blanks where
  chars : List Char
  isBlank : ∀ c ∈ chars, Text.isBlank c = true

/-- The name of a tag, an identifier or a class, which is written as it is: no character of it is
reserved and none is a blank. -/
structure Word where
  chars : List Char
  ne_nil : chars ≠ []
  isPlain : ∀ c ∈ chars, CharKind.isReserved c = false ∧ Text.isBlank c = false

/-- The name of an attribute, without blanks. -/
structure Name where
  chars : List Char
  ne_nil : chars ≠ []
  notBlank : ∀ c ∈ chars, Text.isBlank c = false

/-- A name as it is written, with all that is reserved escaped. -/
def Name.written (n : Name) : List Char := Text.escape CharKind.isReserved n.chars

/-- A name with its ASCII letters in lower case. -/
def lowered (name : List Char) : String := String.ofList (name.map Char.toLower)

/-! ### Brackets -/

/-- What a bracket says of the value of its attribute: how it is compared, and with which value, in
which quotes, between which blanks. -/
structure Test where
  operator : Operator
  compares : operator ≠ .present
  before : Blanks
  quote : Text.Quote
  value : List Char
  behind : Blanks

/-- A test as it is written. -/
def Test.written (t : Test) : List Char :=
  t.operator.symbol.toList ++ t.before.chars ++ t.quote.enclose t.value ++ t.behind.chars

/-- A bracket: an attribute is asked for between blanks, and something of its value or not. -/
structure Bracket where
  before : Blanks
  name : Name
  behind : Blanks
  test : Option Test

namespace Bracket

/-- What stands behind the name and its blanks, up to the end of the bracket. -/
def ending (b : Bracket) : List Char :=
  match b.test with
  | none => [']']
  | some test => test.written ++ [']']

/-- A bracket as it is written. -/
def written (b : Bracket) : List Char :=
  '[' :: (b.before.chars ++ b.name.written ++ b.behind.chars ++ b.ending)

/-- The predicate of a bracket. -/
def predicate (b : Bracket) : Predicate :=
  match b.test with
  | none => ⟨lowered b.name.chars, .present, ""⟩
  | some test => ⟨lowered b.name.chars, test.operator, String.ofList test.value⟩

end Bracket

/-! ### Steps -/

/-- A part of a step behind its tag name: `#id`, `.class`, or `[name]` and `[name op value]`. -/
inductive Part where
  | identifier (word : Word)
  | className (word : Word)
  | bracket (bracket : Bracket)

namespace Part

/-- A part as it is written. -/
def written : Part → List Char
  | identifier word => '#' :: word.chars
  | className word => '.' :: word.chars
  | bracket b => b.written

/-- The predicate that a part stands for, unless it is a class. -/
def predicate? : Part → Option Predicate
  | identifier word => some ⟨"id", .equals, String.ofList word.chars⟩
  | className _ => none
  | bracket b => some b.predicate

/-- The class that a part asks for. -/
def class? : Part → Option String
  | className word => some (String.ofList word.chars)
  | _ => none

end Part

/-- A step without what joins it to others: a tag name, parts behind it, or both. -/
structure Compound where
  tag : Option Word
  parts : List Part
  asks : tag.isSome ∨ parts ≠ []

namespace Compound

/-- A step as it is written. -/
def written (c : Compound) : List Char :=
  (c.tag.elim [] Word.chars) ++ c.parts.flatMap Part.written

/-- The predicate for the classes of a step: `~=` asks for one, `~~=` for several. -/
def classPredicates (c : Compound) : List Predicate :=
  match c.parts.filterMap Part.class? with
  | [] => []
  | [name] => [⟨"class", .anyWord, name⟩]
  | names => [⟨"class", .allWords, " ".intercalate names⟩]

/-- The step that is meant: the predicate for its classes stands behind the others. -/
def step (c : Compound) (combinator : Combinator) : Step :=
  ⟨c.tag.map fun word ↦ lowered word.chars, combinator,
    c.parts.filterMap Part.predicate? ++ c.classPredicates⟩

end Compound

/-! ### Alternatives -/

/-- What joins a step to the one before: blanks, and the step is a descendant, or a `>` between
blanks, and it is a child. -/
inductive Gap where
  | descendant (blanks : Blanks) (ne_nil : blanks.chars ≠ [])
  | child (before behind : Blanks)

namespace Gap

/-- A gap as it is written. -/
def written : Gap → List Char
  | descendant blanks _ => blanks.chars
  | child before behind => before.chars ++ '>' :: behind.chars

/-- How the step behind a gap lies in what the step in front of it selects. -/
def combinator : Gap → Combinator
  | descendant _ _ => .descendant
  | child _ _ => .child

end Gap

/-- The steps of an alternative with the gaps between them. -/
inductive Chain where
  | last (compound : Compound)
  | step (compound : Compound) (gap : Gap) (rest : Chain)

namespace Chain

/-- An alternative as it is written. -/
def written : Chain → List Char
  | last compound => compound.written
  | step compound gap rest => compound.written ++ gap.written ++ rest.written

/-- The steps that are meant, the first of them behind a combinator. -/
def steps (combinator : Combinator) : Chain → Alternative
  | last compound => [compound.step combinator]
  | step compound gap rest => compound.step combinator :: steps gap.combinator rest

end Chain

/-- The alternatives of a selector and the commas between them, around which may be blanks. -/
inductive Choice where
  | last (chain : Chain)
  | alternative (chain : Chain) (before behind : Blanks) (rest : Choice)

namespace Choice

/-- The alternatives as they are written. -/
def written : Choice → List Char
  | last chain => chain.written
  | alternative chain before behind rest =>
    chain.written ++ (before.chars ++ ',' :: behind.chars) ++ rest.written

/-- The alternatives that are meant. -/
def alternatives : Choice → List Alternative
  | last chain => [chain.steps .descendant]
  | alternative chain _ _ rest => chain.steps .descendant :: rest.alternatives

end Choice

/-- A selector with the blanks around it. -/
structure Source where
  before : Blanks
  choice : Choice
  behind : Blanks

/-- The text of a selector. -/
def Source.text (s : Source) : String :=
  String.ofList (s.before.chars ++ s.choice.written ++ s.behind.chars)

end MarkupSelect.Grammar
