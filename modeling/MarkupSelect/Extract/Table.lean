import MarkupSelect.Extract.Tree
import MarkupSelect.Selection

/-!
# Tables

Every table in a selection is extracted by itself. A table inside another one is cut out of it. This
is the table extraction of `SPEC_FULL.md` §13.5.
-/

namespace MarkupSelect.Table

/-- A text without some elements, given by their offsets in ascending order; what lies before
`position` is done with, so that an element inside one that is cut out already is passed over. -/
def cutOut (text : Bytes) (position : Nat) : List (Nat × Bytes) → Bytes
  | [] => text.drop position
  | (offset, element) :: elements =>
    if offset < position then cutOut text position elements
    else
      (text.drop position).take (offset - position) ++
        cutOut text (offset + element.length) elements

/-- The markup of a table without the tables inside it. -/
def withoutNested (table : Bytes) : Bytes :=
  cutOut table 0 (queryText table .document "table table").entries

/-- The tables in one element that lies at an offset. -/
def inElement (offset : Nat) (element : Bytes) : List (Nat × Bytes) :=
  ((Region.mk offset element).findTags (Bytes.ofString "table") fun _ ↦ .keep).entries.map fun e ↦
    (e.1, Element.expand element (e.1 - offset) e.2)

/-- The tables in the elements of a selection. -/
def all (s : Selection) : Matches :=
  .ofList (s.elements.entries.flatMap fun e ↦ inElement e.1 e.2)

/-- The trees of the tables in a selection, each without the tables inside it, with their offsets;
§13.5, `extract_tables`. -/
def trees (s : Selection) : List (Nat × Tree) :=
  (all s).entries.map fun e ↦ (e.1, .ofMarkup (withoutNested e.2))

/-- The values of the tables in a selection. -/
def values (s : Selection) : List (Nat × TextValue) := (trees s).map fun e ↦ (e.1, e.2.values)

end MarkupSelect.Table
