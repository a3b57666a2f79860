import MarkupSelect.Proofs.Element.Placed

/-!
# Forests as they are written

A forest is a row of texts and elements, each element with its start tag as it is written and the
forest inside it. In the rendering every element has a place of its own: the nodes of a forest are
its elements with the offsets at which they begin.
-/

namespace MarkupSelect

namespace StartTag

/-- A tag that is found wherever it is written: the name is plain, and the attribute list begins
with white space, if there is one, and holds no angle bracket. -/
structure IsPlain (tag : StartTag) : Prop where
  name_plain : Tag.IsPlain tag.name
  isSpace : ∀ b ∈ tag.attributes.head?, Ascii.isSpace b = true
  less_not_mem : Ascii.less ∉ tag.attributes
  greater_not_mem : Ascii.greater ∉ tag.attributes

/-- A tag is plain whose attributes, each behind white space, hold no angle bracket, in whatever
letter case or quotes they are written and however often. -/
theorem isPlain_flatten {name : Bytes} (hname : Tag.IsPlain name) {attributes : List Bytes}
    (hspace : ∀ a ∈ attributes, ∃ b ∈ a.head?, Ascii.isSpace b = true)
    (hless : ∀ a ∈ attributes, Ascii.less ∉ a) (hgreater : ∀ a ∈ attributes, Ascii.greater ∉ a) :
    IsPlain ⟨name, attributes.flatten⟩ := by
  refine ⟨hname, ?_, ?_, ?_⟩
  · intro b hb
    cases attributes with
    | nil => contradiction
    | cons a attributes =>
      obtain ⟨c, hc, hcspace⟩ := hspace a List.mem_cons_self
      rw [List.flatten_cons, List.head?_append, Option.mem_def.mp hc] at hb
      rwa [← Option.some.inj hb]
  · intro hmem
    obtain ⟨a, ha, hb⟩ := List.mem_flatten.mp hmem
    exact hless a ha hb
  · intro hmem
    obtain ⟨a, ha, hb⟩ := List.mem_flatten.mp hmem
    exact hgreater a ha hb

/-- A plain tag is one that can be found. -/
theorem IsPlain.isProper {tag : StartTag} (h : tag.IsPlain) : tag.IsProper :=
  ⟨h.name_plain.ne_nil, h.name_plain.bytes, fun b hb ↦ Tag.isNameByte_of_isSpace (h.isSpace b hb),
    h.greater_not_mem⟩

/-- What follows the content of an element. -/
def closing (tag : StartTag) : Bytes := if Tag.isVoid tag.name then [] else Element.endTag tag.name

/-- An element with some content; an element that never has content is its start tag alone. -/
def element (tag : StartTag) (content : Bytes) : Bytes :=
  tag.text ++ if Tag.isVoid tag.name then [] else content ++ Element.endTag tag.name

end StartTag

/-- A row of texts and elements: nothing, a text in front of others, or an element, with the forest
inside it, in front of others. -/
inductive Forest where
  | empty
  | text (content : Bytes) (rest : Forest)
  | element (tag : StartTag) (children rest : Forest)
deriving DecidableEq, Repr

namespace Forest

/-- A forest as markup. -/
def render : Forest → Bytes
  | empty => []
  | text content rest => content ++ rest.render
  | element tag children rest => tag.element children.render ++ rest.render

/-! ### Well-formed forests -/

/-- An element that can be written: the tag is plain, and there are no children where there can be
no content. -/
structure IsWritten (tag : StartTag) (children : Forest) : Prop where
  tag_plain : tag.IsPlain
  children_of_isVoid : Tag.isVoid tag.name = true → children = .empty

/-- A forest whose elements can be written and whose texts hold no `<`. -/
inductive WellFormed : Forest → Prop
  | empty : WellFormed .empty
  | text {content : Bytes} {rest : Forest} (h : Ascii.less ∉ content) (hrest : WellFormed rest) :
      WellFormed (.text content rest)
  | element {tag : StartTag} {children rest : Forest} (h : IsWritten tag children)
      (hchildren : WellFormed children) (hrest : WellFormed rest) :
      WellFormed (.element tag children rest)

/-- An element that can be written is its start tag, its children and its end tag, if it has
one. -/
theorem IsWritten.element_eq {tag : StartTag} {children : Forest} (h : IsWritten tag children) :
    tag.element children.render = tag.text ++ (children.render ++ tag.closing) := by
  rw [StartTag.element, StartTag.closing]
  split
  · next hv => rw [h.children_of_isVoid hv, render, List.nil_append]
  · rfl

/-! ### Nodes -/

/-- An element of a forest with the offset at which it begins. -/
structure Node where
  offset : Nat
  tag : StartTag
  children : Forest

namespace Node

/-- The rendering of the element. -/
def markup (n : Node) : Bytes := n.tag.element n.children.render

/-- The offset at which its children begin. -/
def inner (n : Node) : Nat := n.offset + n.tag.length

/-- A node whose element can be written, with the forest inside it. -/
structure WellFormed (n : Node) : Prop where
  written : IsWritten n.tag n.children
  children : n.children.WellFormed

/-- The rendering of a node is its start tag, its children and its end tag, if it has one. -/
theorem WellFormed.markup_eq {n : Node} (h : n.WellFormed) :
    n.markup = n.tag.text ++ (n.children.render ++ n.tag.closing) := h.written.element_eq

/-- A node begins with its start tag. -/
theorem text_prefix (n : Node) : n.tag.text <+: n.markup := List.prefix_append _ _

/-- There is something in the rendering of a node. -/
theorem length_markup_pos (n : Node) : 0 < n.markup.length :=
  Nat.lt_of_lt_of_le n.tag.length_pos n.text_prefix.length_le

end Node

/-- The elements of a forest whose rendering begins at an offset, each in front of those inside
it. -/
def nodes (offset : Nat) : Forest → List Node
  | empty => []
  | text content rest => rest.nodes (offset + content.length)
  | element tag children rest =>
    ⟨offset, tag, children⟩ :: (children.nodes (offset + tag.length) ++
      rest.nodes (offset + (tag.element children.render).length))

/-- The elements of a forest that lie in no other element of it. -/
def roots (offset : Nat) : Forest → List Node
  | empty => []
  | text content rest => rest.roots (offset + content.length)
  | element tag children rest =>
    ⟨offset, tag, children⟩ :: rest.roots (offset + (tag.element children.render).length)

variable {forest : Forest} {offset : Nat} {m n : Node}

/-- The nodes of a forest that an element begins are the element, those inside it and those behind
it. -/
theorem mem_nodes_element {tag : StartTag} {children rest : Forest} :
    n ∈ nodes offset (.element tag children rest) ↔ n = ⟨offset, tag, children⟩ ∨
      n ∈ children.nodes (offset + tag.length) ∨
        n ∈ rest.nodes (offset + (tag.element children.render).length) := by
  rw [nodes, List.mem_cons, List.mem_append]

/-- The nodes of a well-formed forest are well-formed. -/
theorem WellFormed.of_mem (hw : forest.WellFormed) (hn : n ∈ forest.nodes offset) :
    n.WellFormed := by
  induction hw generalizing offset with
  | empty => contradiction
  | text _ _ ih => exact ih hn
  | element h hchildren _ ihc ihr =>
    rcases mem_nodes_element.mp hn with rfl | hn | hn
    · exact ⟨h, hchildren⟩
    · exact ihc hn
    · exact ihr hn

/-- A node inside a node of a forest is a node of the forest. -/
theorem mem_nodes_trans (hm : m ∈ n.children.nodes n.inner) (hn : n ∈ forest.nodes offset) :
    m ∈ forest.nodes offset := by
  induction forest generalizing offset with
  | empty => contradiction
  | text _ _ ih => exact ih hn
  | element tag children rest ihc ihr =>
    rw [mem_nodes_element]
    rcases mem_nodes_element.mp hn with rfl | hn | hn
    · exact .inr (.inl hm)
    · exact .inr (.inl (ihc hn))
    · exact .inr (.inr (ihr hn))

end Forest

/-! ### Places of nodes -/

namespace Region

/-- The region of a forest whose rendering begins at an offset. -/
def rendering (offset : Nat) (forest : Forest) : Region := ⟨offset, forest.render⟩

variable {forest : Forest} {offset : Nat} {n : Forest.Node}

/-- Every node of a forest stands in its rendering. -/
theorem holds_node (hw : forest.WellFormed) (hn : n ∈ forest.nodes offset) :
    (rendering offset forest).Holds (n.offset, n.markup) := by
  induction hw generalizing offset with
  | empty => contradiction
  | @text content rest _ _ ih =>
    have hrest : (rendering offset (.text content rest)).Holds
        (offset + content.length, rest.render) :=
      ⟨content.length, rfl, content, [], (List.append_nil _).symm, rfl⟩
    exact Holds.trans hrest (ih hn)
  | @element tag children rest h _ _ ihc ihr =>
    rcases Forest.mem_nodes_element.mp hn with rfl | hn | hn
    · exact ⟨0, rfl, [], rest.render, rfl, rfl⟩
    · have hinner : (rendering offset (.element tag children rest)).Holds
          (offset + tag.length, children.render) := by
        refine ⟨tag.length, rfl, tag.text, tag.closing ++ rest.render, ?_, rfl⟩
        simp [rendering, Forest.render, h.element_eq]
      exact Holds.trans hinner (ihc hn)
    · have hrest : (rendering offset (.element tag children rest)).Holds
          (offset + (tag.element children.render).length, rest.render) :=
        ⟨_, rfl, tag.element children.render, [], (List.append_nil _).symm, rfl⟩
      exact Holds.trans hrest (ihr hn)

end Region

namespace Forest

variable {forest : Forest} {offset : Nat} {m n : Node}

/-- A node begins and ends in the rendering of its forest. -/
theorem WellFormed.bounds (hw : forest.WellFormed) (hn : n ∈ forest.nodes offset) :
    offset ≤ n.offset ∧ n.offset + n.markup.length ≤ offset + forest.render.length :=
  (Region.holds_node hw hn).length_le

/-- The nodes of a forest ascend. -/
theorem WellFormed.pairwise_nodes (hw : forest.WellFormed) (offset : Nat) :
    (forest.nodes offset).Pairwise fun m n ↦ m.offset < n.offset := by
  induction hw generalizing offset with
  | empty => exact .nil
  | text _ _ ih => exact ih _
  | @element tag children rest h hchildren hrest ihc ihr =>
    have hlen : tag.length + children.render.length ≤ (tag.element children.render).length := by
      rw [h.element_eq, List.length_append, List.length_append, StartTag.length]
      omega
    have hpos := tag.length_pos
    rw [nodes, List.pairwise_cons, List.pairwise_append]
    refine ⟨fun n hn ↦ ?_, ihc _, ihr _, fun m hm n hn ↦ ?_⟩
    · dsimp only
      rcases List.mem_append.mp hn with hn | hn
      · have := (hchildren.bounds hn).1
        omega
      · have := (hrest.bounds hn).1
        omega
    · have hinside := hchildren.bounds hm
      have hbehind := (hrest.bounds hn).1
      have := m.length_markup_pos
      omega

end Forest

end MarkupSelect
