import MarkupSelect.Condition.Reading
import MarkupSelect.Query.Basic
import MarkupSelect.Text.Plain

/-!
# Selections

A document with the elements that are selected in it, from which further elements are found inside
those. A text that is no selector and a search without hits both give the empty selection, of which
every question about its first element is answered by `none`, so searches can be chained without
checks. This is the instance surface of `SPEC_FULL.md` §13.1.
-/

namespace MarkupSelect

/-- A document and the elements selected in it, or the document as a whole. -/
structure Selection where
  source : Bytes
  context : Context
deriving DecidableEq

namespace Selection

/-- The selection of a document as a whole. -/
def ofDocument (source : Bytes) : Selection := ⟨source, .document⟩

/-- The selection of elements of a document. -/
def ofMatches (source : Bytes) (elements : Matches) : Selection := ⟨source, .selected elements⟩

/-- The selection of nothing in the same document. -/
def cleared (s : Selection) : Selection := ofMatches s.source .empty

/-- The elements selected, with their offsets; a document as a whole is one element at its
beginning. -/
def elements (s : Selection) : Matches :=
  match s.context with
  | .document => .singleton 0 s.source
  | .selected elements => elements

/-- The number of elements selected. -/
def size (s : Selection) : Nat := s.elements.size

/-- Whether nothing is selected. -/
def isEmpty (s : Selection) : Bool := s.size == 0

/-- The elements that a selector selects inside those selected. -/
def findSelector (s : Selection) (selector : Selector) : Selection :=
  ofMatches s.source (selector.query s.source s.context)

/-- The elements that a text selects inside those selected. -/
def find (s : Selection) (text : String) : Selection :=
  match Selector.compile text with
  | .ok selector => s.findSelector selector
  | .error _ => s.cleared

/-- The elements inside those selected whose attributes meet a condition, given as a text. -/
def findWhere (s : Selection) (condition : String) : Selection :=
  match Condition.read condition with
  | .ok condition => ofMatches s.source (condition.query s.source s.context)
  | .error _ => s.cleared

/-- The position that an index means among some elements; a negative one counts from the end. -/
def position? (size : Nat) (index : Int) : Option Nat :=
  if index < 0 then
    if index.natAbs ≤ size then some (size - index.natAbs) else none
  else if index.natAbs < size then some index.natAbs
  else none

/-- The element at an index alone. -/
def nth (s : Selection) (index : Int) : Selection :=
  match position? s.size index with
  | none => s.cleared
  | some position =>
    match s.context with
    | .document => s
    | .selected elements =>
      match elements.nth? position with
      | some (offset, markup) => ofMatches s.source (.singleton offset markup)
      | none => s.cleared

/-- The markup of the first element. -/
def html? (s : Selection) : Option Bytes := s.elements.first?.map (·.2)

/-- The text of the first element, without its tags. -/
def text? (s : Selection) : Option Bytes := s.html?.map Bytes.stripTags

/-- The value of an attribute of the first element, if it is there and has one. -/
def attribute? (s : Selection) (name : Bytes) : Option Bytes :=
  s.html?.bind fun markup ↦ (AttributeMap.ofMarkupValid markup).extract? name.lower

@[simp] theorem elements_ofMatches (source : Bytes) (elements : Matches) :
    (ofMatches source elements).elements = elements := rfl

@[simp] theorem size_ofDocument (source : Bytes) : (ofDocument source).size = 1 := rfl

end Selection

end MarkupSelect
