import Mathlib.Data.List.Nodup
import MarkupSelect.Extract.Tree
import MarkupSelect.Proofs.Attribute.Rendering
import MarkupSelect.Proofs.Forest.Written

/-!
# Forests and their renderings

A forest is a list of trees. Its rendering is a document in which every element has a place of its
own: the nodes of the forest are its elements with the offsets at which their renderings begin.
-/

namespace MarkupSelect

namespace Tree

/-- The start tag of an element. -/
def startTag (tag : Bytes) (attributes : AttributeMap) : StartTag :=
  ⟨tag, Attribute.renderAll attributes.entries⟩

mutual

/-- A tree as markup: an element that never has content is its start tag alone. -/
def render : Tree → Bytes
  | .text content => content
  | .element tag attributes children =>
    (startTag tag attributes).text ++
      if Tag.isVoid tag then [] else renderAll children ++ Element.endTag tag

/-- The renderings of trees one behind the other. -/
def renderAll : List Tree → Bytes
  | [] => []
  | tree :: trees => tree.render ++ renderAll trees

end

/-! ### Trees that can be written -/

/-- An element that can be written: the name and the attributes are plain, and there are no children
where there can be no content. -/
structure IsWritable (tag : Bytes) (attributes : AttributeMap) (children : List Tree) : Prop where
  tag_plain : Tag.IsPlain tag
  attributes_plain : ∀ a ∈ attributes.entries, Attribute.IsPlain a
  children_of_isVoid : Tag.isVoid tag = true → children = []

/-- A tree whose elements can be written and whose texts hold no `<`. -/
inductive Writable : Tree → Prop
  | text {content : Bytes} (h : Ascii.less ∉ content) : Writable (.text content)
  | element {tag : Bytes} {attributes : AttributeMap} {children : List Tree}
      (h : IsWritable tag attributes children) (hchildren : ∀ tree ∈ children, Writable tree) :
      Writable (.element tag attributes children)

mutual

private theorem forest_cons {P : List Tree → Prop} (nil : P [])
    (text : ∀ content trees, Ascii.less ∉ content → P trees → P (.text content :: trees))
    (element : ∀ tag attributes children trees, IsWritable tag attributes children →
      (∀ tree ∈ children, Writable tree) → P children → P trees →
        P (.element tag attributes children :: trees)) :
    ∀ (tree : Tree) (trees : List Tree), tree.Writable → P trees → P (tree :: trees)
  | .text content, trees, .text h, htrees => text content trees h htrees
  | .element tag attributes children, trees, .element h hchildren, htrees =>
    element tag attributes children trees h hchildren
      (forest_induction nil text element children hchildren) htrees

/-- A property of forests that can be written is settled by the empty forest, by a text in front of
a forest, and by an element in front of a forest with the forest of its children. -/
theorem forest_induction {P : List Tree → Prop} (nil : P [])
    (text : ∀ content trees, Ascii.less ∉ content → P trees → P (.text content :: trees))
    (element : ∀ tag attributes children trees, IsWritable tag attributes children →
      (∀ tree ∈ children, Writable tree) → P children → P trees →
        P (.element tag attributes children :: trees)) :
    ∀ trees : List Tree, (∀ tree ∈ trees, Writable tree) → P trees
  | [], _ => nil
  | tree :: trees, h =>
    forest_cons nil text element tree trees (h tree List.mem_cons_self)
      (forest_induction nil text element trees fun t ht ↦ h t (List.mem_cons_of_mem _ ht))

end

/-! ### Well-formed trees -/

/-- An element that can be rendered: the name is a known one, the attributes are plain, and there
are no children where there can be no content. -/
structure IsPlain (tag : Bytes) (attributes : AttributeMap) (children : List Tree) : Prop where
  tag_known : tag ∈ Tag.knownNames
  attributes_plain : ∀ a ∈ attributes.entries, Attribute.IsPlain a
  children_of_isVoid : Tag.isVoid tag = true → children = []

/-- A tree whose elements are plain and whose texts hold no `<`. -/
inductive WellFormed : Tree → Prop
  | text {content : Bytes} (h : Ascii.less ∉ content) : WellFormed (.text content)
  | element {tag : Bytes} {attributes : AttributeMap} {children : List Tree}
      (h : IsPlain tag attributes children) (hchildren : ∀ tree ∈ children, WellFormed tree) :
      WellFormed (.element tag attributes children)

/-- A well-formed tree can be written. -/
theorem WellFormed.writable {tree : Tree} (h : tree.WellFormed) : tree.Writable := by
  induction h with
  | text h => exact .text h
  | element h _ ih =>
    exact .element ⟨Tag.isPlain_of_mem h.tag_known, h.attributes_plain, h.children_of_isVoid⟩ ih

/-- A well-formed forest can be written. -/
theorem forall_writable {trees : List Tree} (hw : ∀ tree ∈ trees, WellFormed tree) :
    ∀ tree ∈ trees, Writable tree := fun tree htree ↦ (hw tree htree).writable

/-! ### Renderings -/

@[simp] theorem renderAll_nil : renderAll [] = [] := by rw [renderAll]

@[simp] theorem renderAll_cons (tree : Tree) (trees : List Tree) :
    renderAll (tree :: trees) = tree.render ++ renderAll trees := by rw [renderAll]

@[simp] theorem render_text (content : Bytes) :
    (Tree.text content).render = content := by rw [render]

/-! ### Nodes -/

/-- An element of a forest, by its name, its attributes and its children, with the offset at which
its rendering begins. -/
structure Node where
  offset : Nat
  tag : Bytes
  attributes : AttributeMap
  children : List Tree

namespace Node

/-- The element without its offset. -/
def tree (n : Node) : Tree := .element n.tag n.attributes n.children

/-- The start tag of the element. -/
def startTag (n : Node) : StartTag := Tree.startTag n.tag n.attributes

/-- The rendering of the element. -/
def markup (n : Node) : Bytes := n.tree.render

/-- The offset at which its children begin. -/
def inner (n : Node) : Nat := n.offset + n.startTag.length

end Node

mutual

/-- The elements of a tree whose rendering begins at an offset, each in front of those inside it. -/
def nodes (offset : Nat) : Tree → List Node
  | .text _ => []
  | .element tag attributes children =>
    ⟨offset, tag, attributes, children⟩ ::
      nodesOfAll (offset + (startTag tag attributes).length) children

/-- The elements of a forest whose rendering begins at an offset. -/
def nodesOfAll (offset : Nat) : List Tree → List Node
  | [] => []
  | tree :: trees => tree.nodes offset ++ nodesOfAll (offset + tree.render.length) trees

end

/-- The elements of a forest that lie in no other element of it. -/
def roots (offset : Nat) : List Tree → List Node
  | [] => []
  | .text content :: trees => roots (offset + content.length) trees
  | .element tag attributes children :: trees =>
    ⟨offset, tag, attributes, children⟩ ::
      roots (offset + (Tree.element tag attributes children).render.length) trees

@[simp] theorem nodesOfAll_nil (offset : Nat) : nodesOfAll offset [] = [] := by rw [nodesOfAll]

@[simp] theorem nodesOfAll_text (offset : Nat) (content : Bytes) (trees : List Tree) :
    nodesOfAll offset (.text content :: trees) = nodesOfAll (offset + content.length) trees := by
  rw [nodesOfAll, nodes, List.nil_append, render_text]

/-- The nodes of a forest that an element begins are the element, those inside it and those behind
it. -/
theorem mem_nodesOfAll_element {offset : Nat} {tag : Bytes} {attributes : AttributeMap}
    {children trees : List Tree} {n : Node} :
    n ∈ nodesOfAll offset (.element tag attributes children :: trees) ↔
      n = ⟨offset, tag, attributes, children⟩ ∨
        n ∈ nodesOfAll (offset + (startTag tag attributes).length) children ∨
          n ∈ nodesOfAll (offset + (Tree.element tag attributes children).render.length) trees := by
  rw [nodesOfAll, nodes, List.cons_append, List.mem_cons, List.mem_append]

/-- A root is a node. -/
theorem mem_nodesOfAll_of_mem_roots {offset : Nat} {trees : List Tree} {n : Node}
    (h : n ∈ roots offset trees) : n ∈ nodesOfAll offset trees := by
  fun_induction roots offset trees with
  | case1 => contradiction
  | case2 offset content trees ih =>
    rw [nodesOfAll_text]
    exact ih h
  | case3 offset tag attributes children trees ih =>
    rw [mem_nodesOfAll_element]
    rcases List.mem_cons.mp h with h | h
    · exact .inl h
    · exact .inr (.inr (ih h))

/-- What the children have of their element, the nodes have of the trees of a forest. -/
theorem of_mem_nodesOfAll {Q : Tree → Prop}
    (hQ : ∀ tag attributes children, Q (.element tag attributes children) →
      ∀ tree ∈ children, Q tree)
    {trees : List Tree} (hw : ∀ tree ∈ trees, Writable tree) (h : ∀ tree ∈ trees, Q tree)
    {offset : Nat} {n : Node} (hn : n ∈ nodesOfAll offset trees) : Q n.tree := by
  revert offset
  refine forest_induction (P := fun trees ↦ (∀ tree ∈ trees, Q tree) →
    ∀ {offset}, n ∈ nodesOfAll offset trees → Q n.tree) ?_ ?_ ?_ trees hw h
  · intro _ offset hn
    rw [nodesOfAll_nil] at hn
    contradiction
  · intro content trees _ ih h offset hn
    rw [nodesOfAll_text] at hn
    exact ih (fun t ht ↦ h t (List.mem_cons_of_mem _ ht)) hn
  · intro tag attributes children trees _ _ ihc iht h offset hn
    have helement := h _ List.mem_cons_self
    rcases mem_nodesOfAll_element.mp hn with rfl | hn | hn
    · exact helement
    · exact ihc (hQ _ _ _ helement) hn
    · exact iht (fun t ht ↦ h t (List.mem_cons_of_mem _ ht)) hn

/-- The nodes of a well-formed forest are well-formed. -/
theorem wellFormed_of_mem {trees : List Tree} (hw : ∀ tree ∈ trees, WellFormed tree) {offset : Nat}
    {n : Node} (h : n ∈ nodesOfAll offset trees) : n.tree.WellFormed := by
  refine of_mem_nodesOfAll ?_ (forall_writable hw) hw h
  rintro _ _ _ (_ | ⟨-, hchildren⟩)
  exact hchildren

/-- A node inside a node of a forest is a node of the forest. -/
theorem mem_nodesOfAll_trans {trees : List Tree} (hw : ∀ tree ∈ trees, Writable tree)
    {offset : Nat} {m n : Node} (hm : m ∈ nodesOfAll n.inner n.children)
    (h : n ∈ nodesOfAll offset trees) :
    m ∈ nodesOfAll offset trees := by
  revert offset
  refine forest_induction (P := fun trees ↦ ∀ {offset}, n ∈ nodesOfAll offset trees →
    m ∈ nodesOfAll offset trees) ?_ ?_ ?_ trees hw
  · intro offset h
    rw [nodesOfAll_nil] at h
    contradiction
  · intro content trees _ ih offset h
    rw [nodesOfAll_text] at h ⊢
    exact ih h
  · intro tag attributes children trees _ _ ihc iht offset h
    rw [mem_nodesOfAll_element]
    rcases mem_nodesOfAll_element.mp h with rfl | h | h
    · exact .inr (.inl hm)
    · exact .inr (.inl (ihc h))
    · exact .inr (.inr (iht h))

end Tree

/-! ### Trees as forests -/

/-- Trees as a forest, each element with its start tag as it is rendered. -/
def Forest.ofTrees : List Tree → Forest
  | [] => .empty
  | .text content :: trees => .text content (ofTrees trees)
  | .element tag attributes children :: trees =>
    .element (Tree.startTag tag attributes) (ofTrees children) (ofTrees trees)

/-- A node of trees as one of their forest. -/
def Tree.Node.written (n : Tree.Node) : Forest.Node := ⟨n.offset, n.startTag, .ofTrees n.children⟩

namespace Forest

/-- Trees are rendered as their forest is. -/
theorem render_ofTrees (trees : List Tree) : (ofTrees trees).render = Tree.renderAll trees := by
  fun_induction ofTrees trees with
  | case1 => rw [render, Tree.renderAll_nil]
  | case2 content trees ih => rw [render, ih, Tree.renderAll_cons, Tree.render_text]
  | case3 tag attributes children trees ihc iht =>
    rw [render, ihc, iht, Tree.renderAll_cons, Tree.render]
    rfl

/-- A node is rendered as its tree is. -/
theorem markup_written (n : Tree.Node) : n.written.markup = n.markup := by
  rw [Node.markup, Tree.Node.written, render_ofTrees, Tree.Node.markup, Tree.Node.tree, Tree.render]
  rfl

/-- The nodes of trees are those of their forest. -/
theorem nodes_ofTrees (offset : Nat) (trees : List Tree) :
    (ofTrees trees).nodes offset = (Tree.nodesOfAll offset trees).map Tree.Node.written := by
  fun_induction ofTrees trees generalizing offset with
  | case1 => rw [nodes, Tree.nodesOfAll_nil, List.map_nil]
  | case2 content trees ih => rw [nodes, ih, Tree.nodesOfAll_text]
  | case3 tag attributes children trees ihc iht =>
    have hlen : ((Tree.startTag tag attributes).element (ofTrees children).render).length =
        (Tree.element tag attributes children).render.length :=
      congrArg List.length (markup_written ⟨offset, tag, attributes, children⟩)
    rw [nodes, ihc, iht, hlen, Tree.nodesOfAll, Tree.nodes, List.cons_append, List.map_cons,
      List.map_append]
    rfl

/-- The roots of trees are those of their forest. -/
theorem roots_ofTrees (offset : Nat) (trees : List Tree) :
    (ofTrees trees).roots offset = (Tree.roots offset trees).map Tree.Node.written := by
  fun_induction Tree.roots offset trees with
  | case1 => rw [ofTrees, roots, List.map_nil]
  | case2 offset content trees ih => rw [ofTrees, roots, ih]
  | case3 offset tag attributes children trees ih =>
    have hlen : ((Tree.startTag tag attributes).element (ofTrees children).render).length =
        (Tree.element tag attributes children).render.length :=
      congrArg List.length (markup_written ⟨offset, tag, attributes, children⟩)
    rw [ofTrees, roots, hlen, ih, List.map_cons]
    rfl

end Forest

namespace Tree

variable {tag : Bytes} {attributes : AttributeMap} {children : List Tree}

/-- The start tag of an element that can be written is plain. -/
theorem IsWritable.isPlain_startTag (h : IsWritable tag attributes children) :
    (startTag tag attributes).IsPlain := by
  have hbrackets := Attribute.not_mem_renderAll h.attributes_plain
  have hrender : Attribute.renderAll attributes.entries =
      (attributes.entries.map Attribute.render).flatten := rfl
  rw [startTag, hrender]
  apply StartTag.isPlain_flatten h.tag_plain
  · intro a ha
    obtain ⟨e, -, rfl⟩ := List.mem_map.mp ha
    exact ⟨Ascii.space, rfl, by decide⟩
  · exact fun a ha hmem ↦ hbrackets.1 (List.mem_flatten.mpr ⟨a, ha, hmem⟩)
  · exact fun a ha hmem ↦ hbrackets.2 (List.mem_flatten.mpr ⟨a, ha, hmem⟩)

/-- Trees that can be written are a well-formed forest. -/
theorem wellFormed_ofTrees {trees : List Tree} (hw : ∀ tree ∈ trees, Writable tree) :
    (Forest.ofTrees trees).WellFormed := by
  refine forest_induction (P := fun trees ↦ (Forest.ofTrees trees).WellFormed) ?_ ?_ ?_ trees hw
  · rw [Forest.ofTrees]
    exact .empty
  · intro content trees hcontent ih
    rw [Forest.ofTrees]
    exact .text hcontent ih
  · intro tag attributes children trees h _ ihc iht
    rw [Forest.ofTrees]
    refine .element ⟨h.isPlain_startTag, fun hv ↦ ?_⟩ ihc iht
    rw [h.children_of_isVoid hv, Forest.ofTrees]

/-- A node is among the nodes of the forest. -/
theorem written_mem {trees : List Tree} {offset : Nat} {n : Node}
    (hn : n ∈ nodesOfAll offset trees) : n.written ∈ (Forest.ofTrees trees).nodes offset := by
  rw [Forest.nodes_ofTrees]
  exact List.mem_map_of_mem hn

/-- Two nodes of trees do not begin at one offset. -/
theorem eq_of_offset {trees : List Tree} (hw : ∀ tree ∈ trees, WellFormed tree) {offset : Nat}
    {m n : Node} (hm : m ∈ nodesOfAll offset trees) (hn : n ∈ nodesOfAll offset trees)
    (h : m.offset = n.offset) : m = n := by
  have hforest := (wellFormed_ofTrees (forall_writable hw)).pairwise_nodes offset
  rw [Forest.nodes_ofTrees, List.pairwise_map] at hforest
  have hoffsets : ((nodesOfAll offset trees).map Node.offset).Nodup :=
    List.pairwise_map.mpr (hforest.imp Nat.ne_of_lt)
  exact List.inj_on_of_nodup_map hoffsets hm hn h

end Tree

end MarkupSelect
