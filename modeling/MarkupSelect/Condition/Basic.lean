import MarkupSelect.Attribute.Map
import MarkupSelect.Text.Alphanumeric

/-!
# Conditions on attributes

A condition is an alternative of groups of atoms. An atom holds of attributes that include its field
with a value that compares as it asks; a group holds if all its atoms do, a condition if one of its
groups does. The condition without groups holds always. These are the conditions of `SPEC_FULL.md`
§3 and §4.4.
-/

namespace MarkupSelect

/-!
### Operators

The comparisons of an attribute value with an expected value. Equality and order are those of the
bytes; the tests for a beginning, an end or a part ignore ASCII letter case; the tests for words
compare whole words. The operators are those of §4.4 and §12, with the order by bytes that §9 leaves
open.
-/

/-- A comparison of an attribute value with an expected value. How each is written says `symbol`,
what it means `apply`; `present` asks only that the attribute is there. -/
inductive Operator where
  | equals
  | notEquals
  | less
  | greater
  | lessOrEqual
  | greaterOrEqual
  | hyphenated
  | anyWord
  | allWords
  | contains
  | notContains
  | startsWith
  | notStartsWith
  | endsWith
  | notEndsWith
  | present
deriving DecidableEq, Repr

namespace Operator

/-- All operators, in the order of their definition. -/
def all : List Operator :=
  [equals, notEquals, less, greater, lessOrEqual, greaterOrEqual, hyphenated, anyWord, allWords,
    contains, notContains, startsWith, notStartsWith, endsWith, notEndsWith, present]

/-- The symbol of an operator; the test for presence has none. -/
def symbol : Operator → String
  | equals => "="
  | notEquals => "!="
  | less => "<"
  | greater => ">"
  | lessOrEqual => "<="
  | greaterOrEqual => ">="
  | hyphenated => "|="
  | anyWord => "~="
  | allWords => "~~="
  | contains => "*="
  | notContains => "!*="
  | startsWith => "^="
  | notStartsWith => "!^="
  | endsWith => "$="
  | notEndsWith => "!$="
  | present => ""

/-- The name of an operator in a report: its symbol, or `exists`. -/
def label : Operator → String
  | present => "exists"
  | op => op.symbol

/-- The operator of a symbol. -/
def ofSymbol? (symbol : String) : Option Operator :=
  if symbol.isEmpty then none else all.find? (·.symbol == symbol)

/-- The bytes of one text come before those of another. -/
def precedes : (s t : Bytes) → Bool
  | _, [] => false
  | [], _ :: _ => true
  | a :: s, b :: t => a < b || (a == b && precedes s t)

/-- Whether a text is another one with `-` and a word character behind it, and possibly more. -/
def continuesWithHyphen (actual expected : Bytes) : Bool :=
  match Bytes.strip? expected actual with
  | some (b :: rest) => b == Ascii.hyphen && (Bytes.firstChar? rest).any Text.isWordChar
  | _ => false

/-- Whether an attribute value compares as wanted with the expected value. -/
def apply (op : Operator) (actual expected : Bytes) : Bool :=
  match op with
  | equals => actual == expected
  | notEquals => actual != expected
  | less => precedes actual expected
  | greater => precedes expected actual
  | lessOrEqual => !precedes expected actual
  | greaterOrEqual => !precedes actual expected
  | hyphenated => actual == expected || continuesWithHyphen actual expected
  | anyWord => (Bytes.words expected).any (Bytes.words actual).contains
  | allWords =>
    !(Bytes.words expected).isEmpty && (Bytes.words expected).all (Bytes.words actual).contains
  | contains => Bytes.holds actual expected
  | notContains => !Bytes.holds actual expected
  | startsWith => Bytes.beginsWith expected actual
  | notStartsWith => !Bytes.beginsWith expected actual
  | endsWith => Bytes.endsWith expected actual
  | notEndsWith => !Bytes.endsWith expected actual
  | present => true

/-- Every operator is in the list of all. -/
theorem mem_all (op : Operator) : op ∈ all := by
  cases op <;> decide

/-- No text comes before itself. -/
@[simp] theorem precedes_self (s : Bytes) : precedes s s = false := by
  induction s with
  | nil => rfl
  | cons b s ih => simp [precedes, ih]

end Operator

/-! ### Atoms and conditions -/

/-- A comparison of one attribute with an expected value. -/
structure Atom where
  field : String
  operator : Operator
  value : String
deriving DecidableEq, Repr

/-- Whether an atom holds of the attributes; of an absent attribute none does, and an attribute
without a value compares as the empty value. -/
def Atom.evaluate (a : Atom) (attributes : AttributeMap) : Bool :=
  match attributes.get? (Bytes.ofString a.field) with
  | none => false
  | some actual => a.operator.apply (actual.getD []) (Bytes.ofString a.value)

/-- An alternative of groups, in the order written, each of which asks for all its atoms. -/
structure Condition where
  groups : List (List Atom)
deriving DecidableEq, Repr

namespace Condition

/-- The condition that always holds. -/
def always : Condition := ⟨[]⟩

/-- The condition that asks for all of these atoms. -/
def all (atoms : List Atom) : Condition := if atoms.isEmpty then always else ⟨[atoms]⟩

/-- Whether there is no group. -/
def isEmpty (c : Condition) : Bool := c.groups.isEmpty

/-- Whether the condition holds of the attributes. -/
def evaluate (c : Condition) (attributes : AttributeMap) : Bool :=
  c.isEmpty || c.groups.any fun group ↦ group.all (·.evaluate attributes)

/-- The fields of which every element that meets the condition has one: the first field of each
group, each named once, in the order of their first occurrence. -/
def anchors (c : Condition) : List String :=
  (c.groups.filterMap fun group ↦ group.head?.map (·.field)).foldl
    (fun seen field ↦ if seen.contains field then seen else seen ++ [field]) []

@[simp] theorem evaluate_always (attributes : AttributeMap) :
    always.evaluate attributes = true := rfl

/-- One group asks for all its atoms. -/
theorem evaluate_all (atoms : List Atom) (attributes : AttributeMap) :
    (all atoms).evaluate attributes = atoms.all (·.evaluate attributes) := by
  cases atoms <;> simp [all, evaluate, isEmpty, always]

end Condition

end MarkupSelect
