import MarkupSelect.Attribute.Reading
import MarkupSelect.Element
import MarkupSelect.Text.Plain

/-!
# Trees

The tree of an element has the trees of its direct children and the text between them, with white
space collapsed. An element too deep in the tree is kept as raw text. The values of a tree are its
text alone: an element with one child has the values of that child. This is the tree builder of
`SPEC_FULL.md` §13.3.
-/

namespace MarkupSelect

/-- A tree: an element, the name of its tag in lower case, with its children, or a run of text. -/
inductive Tree where
  | element (tag : Bytes) (attributes : AttributeMap) (children : List Tree)
  | text (content : Bytes)

namespace Tree

/-- The depth beyond which elements are kept as raw text; the root has depth 0; §11.3,
`MAX_TREE_DEPTH`. -/
def maxDepth : Nat := 512

/-- The tag name of an element. -/
def tag? : Tree → Option Bytes
  | element tag _ _ => some tag
  | text _ => none

/-- A run of text with its white space collapsed, as a list of at most one tree. -/
def ofGap (gap : Bytes) : List Tree :=
  let gap := gap.collapse
  if gap.isEmpty then [] else [.text gap]

/-- The trees of children and of the gaps around them, in a content of which the part before
`position` is done with. -/
def weave (subtree : Bytes → Tree) (content : Bytes) (position : Nat) : List Child → List Tree
  | [] => ofGap (content.drop position)
  | child :: children =>
    ofGap ((content.drop position).take (child.offset - position)) ++
      subtree child.element ::
        weave subtree content (child.offset + child.element.length) children

/-- The tree of a markup in which elements lie on at most as many levels as given. -/
def ofMarkupWithin : (levels : Nat) → Bytes → Tree
  | 0, markup => .text markup
  | levels + 1, markup =>
    match StartTag.ofMarkup? markup with
    | none => .text markup
    | some tag =>
      let children :=
        match Parts.ofMarkup? markup with
        | none => []
        | some parts =>
          weave (ofMarkupWithin levels) parts.content 0 (Region.whole parts.content).children
      .element tag.lowerName (.ofStartTag tag) children

/-- The tree of a markup; a markup that begins with no start tag is text; §13.3, `extract_tree`. -/
def ofMarkup (markup : Bytes) : Tree := ofMarkupWithin (maxDepth + 1) markup

end Tree

/-- The text that a tree shows: one text, or several texts or lists of them. -/
inductive TextValue where
  | text (content : Bytes)
  | list (items : List TextValue)

/-- Several values as one: none is the empty text, and a single one stands for itself. -/
def TextValue.ofItems : List TextValue → TextValue
  | [] => .text []
  | [item] => item
  | items => .list items

namespace Tree

mutual

/-- The values of a tree; §13.3, `extract_values`. -/
def values : Tree → TextValue
  | .text content => .text content
  | .element _ _ children => .ofItems (valuesOfAll children)

/-- The values of trees, one by one. -/
def valuesOfAll : List Tree → List TextValue
  | [] => []
  | tree :: trees => tree.values :: valuesOfAll trees

end

end Tree

end MarkupSelect
