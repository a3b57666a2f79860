import MarkupSelect.Attribute.Reading
import MarkupSelect.Condition.Basic
import MarkupSelect.Element

/-!
# Searching for start tags

A search goes through a region by a tag name or by an attribute name and lets a filter decide about
each start tag that it comes upon. This is the raw-text locator of `SPEC_FULL.md` §4.3 with the
shortcuts of §4.6.
-/

namespace MarkupSelect

/-!
### Filters

A search offers the start tags that it comes upon to a filter, one by one in the order of the text.
The filter may remember what it was offered. A start tag that is already kept is not offered again.
-/

/-- The answer of a filter to one start tag: to pass over it, to keep it, or to keep it and end the
search. -/
inductive Verdict where
  | skip
  | keep
  | keepAndStop
deriving DecidableEq, Repr

namespace Verdict

/-- Keep what meets a test and skip the rest. -/
def ofBool (keep : Bool) : Verdict := if keep then .keep else .skip

end Verdict

/-- A filter answers a start tag with a verdict and may change its state of type `σ`; the predicate
that §4.3 lets a caller supply. -/
abbrev Filter (σ : Type) := σ → Bytes → Verdict × σ

namespace Filter

/-- The filter that needs no state. -/
def ofVerdict (verdict : Bytes → Verdict) : Filter Unit := fun _ tag ↦ (verdict tag, ())

/-- The candidates, offsets with their start tags, that the filter keeps besides those kept already,
and its last state. -/
def run {σ : Type} (filter : Filter σ) (state : σ) (kept : Matches) :
    List (Nat × Bytes) → Matches × σ
  | [] => (kept, state)
  | (offset, tag) :: candidates =>
    if kept.contains offset then filter.run state kept candidates
    else
      match filter state tag with
      | (.skip, state) => filter.run state kept candidates
      | (.keep, state) => filter.run state (kept.insert offset tag) candidates
      | (.keepAndStop, state) => (kept.insert offset tag, state)

/-- Without candidates nothing is kept and nothing remembered. -/
@[simp] theorem run_nil {σ : Type} (filter : Filter σ) (state : σ) (kept : Matches) :
    filter.run state kept [] = (kept, state) := rfl

end Filter

namespace Region

/-!
### By tag name

The name must be followed by white space or `>`, and the `<` in front of it must open a start tag.
-/

/-- The start tag that a place begins, if it is one of this name. -/
def tagAt? (name : Bytes) (p : Place) : Option Bytes :=
  let ends := (p.after.drop (Element.openLiteral name).length).head?.any fun b ↦
    Ascii.isSpace b || b == Ascii.greater
  if ends && p.next.insideStartTag then (StartTag.ofMarkup? p.after).map (·.text) else none

/-- The start tags of a name in a region with their offsets in the document, ascending; the tag
search of §4.3. -/
def tagsNamed (r : Region) (name : Bytes) : List (Nat × Bytes) :=
  if name.isEmpty || !name.all Tag.isNameByte then []
  else
    (Place.all (Element.openLiteral name) r.text).filterMap fun p ↦
      (tagAt? name p).map (r.absolute p.offset, ·)

/-- The start tags of a name that a filter keeps, and the last state of the filter. -/
def filterTags {σ : Type} (r : Region) (name : Bytes) (filter : Filter σ) (state : σ) :
    Matches × σ :=
  filter.run state .empty (r.tagsNamed name)

/-- The start tags of a name that a test keeps. -/
def findTags (r : Region) (name : Bytes) (verdict : Bytes → Verdict) : Matches :=
  (r.filterTags name (.ofVerdict verdict) ()).1

/-!
### By attribute name

The name must follow white space and lie inside a start tag, which reaches from the nearest `<`
backward to the nearest `>` forward and must be one start tag of a known element. The search is
literal: a name inside the value of another attribute is found as well, and the filter decides.
-/

/-- The start tag that the attribute name at a place lies in, with its offset in the text. -/
def tagAround? (p : Place) : Option (Nat × Bytes) :=
  if p.before.head?.any Ascii.isSpace && p.insideStartTag then
    p.enclosing?.filter fun e ↦ StartTag.isKnownTag e.2
  else none

/-- The start tags in which an attribute name occurs, with their offsets in the document; a start
tag is listed once for every occurrence; the attribute search of §4.3. -/
def tagsWith (r : Region) (name : Bytes) : List (Nat × Bytes) :=
  if !Attribute.isName name then []
  else
    (Place.all name r.text).filterMap fun p ↦
      (tagAround? p).map fun e ↦ (r.absolute e.1, e.2)

/-- The start tags with an attribute name that a filter keeps, and the last state of the filter. -/
def filterAttributes {σ : Type} (r : Region) (name : Bytes) (filter : Filter σ) (state : σ) :
    Matches × σ :=
  filter.run state .empty (r.tagsWith name)

/-- The start tags with an attribute name that a test keeps. -/
def findAttributes (r : Region) (name : Bytes) (verdict : Bytes → Verdict) : Matches :=
  (r.filterAttributes name (.ofVerdict verdict) ()).1

/-!
### By attributes

The searches for an identifier, for classes and for a condition look for an attribute name and let
the attributes of each start tag decide.
-/

/-- The first start tag whose `id` is the given one (§4.6). A value must be written: the attribute
without one is not taken for the empty value, as §12 has it in conditions. -/
def findId (r : Region) (id : Bytes) : Matches :=
  r.findAttributes (Bytes.ofString "id") fun tag ↦
    if (AttributeMap.ofMarkupValid tag).value? (Bytes.ofString "id") = some id then .keepAndStop
    else .skip

/-- The start tags whose `class` has every one of the given words, of which there must be one
(§4.6). -/
def findClass (r : Region) (classes : List Bytes) : Matches :=
  r.findAttributes (Bytes.ofString "class") fun tag ↦
    match (AttributeMap.ofMarkupValid tag).value? (Bytes.ofString "class") with
    | none => .skip
    | some value => .ofBool (!classes.isEmpty && classes.all (Bytes.words value).contains)

/-- The start tags of which a condition holds, among those that have one of its anchors (§4.6). -/
def findCondition (r : Region) (condition : Condition) : Matches :=
  condition.anchors.foldl
    (fun found field ↦ found.union (r.findAttributes (Bytes.ofString field) fun tag ↦
      .ofBool (condition.evaluate (AttributeMap.ofMarkupValid tag))))
    .empty

end Region

end MarkupSelect
