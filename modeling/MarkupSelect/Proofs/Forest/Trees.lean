import MarkupSelect.Proofs.Forest.Basic
import MarkupSelect.Proofs.Forest.Extent

/-!
# Trees in a rendering

What can be found in the rendering of trees is what can be found in that of their forest: the start
tags are those of the nodes, an element is the rendering of its node, its content is the rendering
of its children, and its direct children are the roots among them.
-/

namespace MarkupSelect

/-! ### Nodes -/

namespace Tree.Node

/-- A node can be written if its tree can. -/
theorem isWritable {n : Node} (h : n.tree.Writable) : IsWritable n.tag n.attributes n.children := by
  cases h with
  | element h _ => exact h

/-- The children of a node can be written. -/
theorem writable_children {n : Node} (h : n.tree.Writable) :
    ∀ tree ∈ n.children, tree.Writable := by
  cases h with
  | element _ hchildren => exact hchildren

/-- A well-formed node is plain. -/
theorem isPlain {n : Node} (h : n.tree.WellFormed) : IsPlain n.tag n.attributes n.children := by
  cases h with
  | element h _ => exact h

/-- The children of a well-formed node are well-formed. -/
theorem wellFormed_children {n : Node} (h : n.tree.WellFormed) :
    ∀ tree ∈ n.children, tree.WellFormed := by
  cases h with
  | element _ hchildren => exact hchildren

/-- A node of trees that can be written is well-formed as a node of their forest. -/
theorem wellFormed_written {n : Node} (h : n.tree.Writable) : n.written.WellFormed := by
  refine ⟨⟨(isWritable h).isPlain_startTag, fun hv ↦ ?_⟩, wellFormed_ofTrees (writable_children h)⟩
  rw [written, (isWritable h).children_of_isVoid hv, Forest.ofTrees]

/-- A node begins with its start tag. -/
theorem startTag_prefix (n : Node) : n.startTag.text <+: n.markup := by
  rw [← Forest.markup_written]
  exact n.written.text_prefix

/-- Where the start tag of a node stands, it is found. -/
theorem ofMarkup?_of_prefix {n : Node} (h : n.tree.Writable) {text : Bytes}
    (hstart : n.startTag.text <+: text) : StartTag.ofMarkup? text = some n.startTag :=
  (isWritable h).isPlain_startTag.ofMarkup?_of_prefix hstart

end Tree.Node

/-! ### Regions -/

namespace Region

/-- The region of trees whose rendering begins at an offset. -/
def ofForest (offset : Nat) (trees : List Tree) : Region := ⟨offset, Tree.renderAll trees⟩

/-- The region of trees is that of their forest. -/
theorem ofForest_eq (offset : Nat) (trees : List Tree) :
    ofForest offset trees = rendering offset (.ofTrees trees) := by
  rw [ofForest, rendering, Forest.render_ofTrees]

variable {trees : List Tree} {offset : Nat} {n : Tree.Node}

/-- The start tags in the rendering of trees are those of their nodes. -/
theorem starts_ofForest_iff (hw : ∀ tree ∈ trees, Tree.Writable tree) {e : Nat × Bytes} :
    (ofForest offset trees).Starts e ↔
      ∃ n ∈ Tree.nodesOfAll offset trees, e = (n.offset, n.startTag.text) := by
  rw [ofForest_eq, starts_rendering_iff (Tree.wellFormed_ofTrees hw), Forest.nodes_ofTrees]
  simp only [List.mem_map, exists_exists_and_eq_and]
  exact Iff.rfl

/-- The one start tag in the start tag of a node is itself. -/
theorem starts_startTag_iff (hn : n.tree.Writable) {e : Nat × Bytes} :
    Starts ⟨n.offset, n.startTag.text⟩ e ↔ e = (n.offset, n.startTag.text) :=
  starts_text_iff (Tree.Node.isWritable hn).isPlain_startTag

/-- The content of a node is the rendering of its children. -/
theorem content?_markup (hn : n.tree.Writable) :
    content? n.offset n.markup =
      if Tag.isVoid n.tag then none else some (ofForest n.inner n.children) := by
  rw [← Forest.markup_written, ofForest_eq]
  exact content?_node (Tree.Node.wellFormed_written hn)

end Region

/-! ### Elements -/

/-- In the rendering of trees the start tag of a node expands to the node. -/
theorem Element.expand_markup {trees : List Tree} (hw : ∀ tree ∈ trees, Tree.Writable tree)
    {offset : Nat} {n : Tree.Node} (hn : n ∈ Tree.nodesOfAll offset trees) :
    expand (Tree.renderAll trees) (n.offset - offset) n.startTag.text = n.markup := by
  have hexpand := expand_node (Tree.wellFormed_ofTrees hw) (Tree.written_mem hn)
  rw [Forest.render_ofTrees, Forest.markup_written] at hexpand
  exact hexpand

/-- The parts of a node that may have content are its start tag, the rendering of its children and
its end tag. -/
theorem Parts.ofMarkup?_markup {n : Tree.Node} (hn : n.tree.Writable) :
    ofMarkup? n.markup =
      if Tag.isVoid n.tag then none
      else some ⟨n.startTag.text, Tree.renderAll n.children, Element.endTag n.tag⟩ := by
  rw [← Forest.markup_written, ← Forest.render_ofTrees]
  exact ofMarkup?_node (Tree.Node.wellFormed_written hn)

/-- A node as a direct child. -/
def Tree.Node.child (n : Tree.Node) : Child := ⟨n.offset, n.startTag.text, n.markup⟩

/-- The direct children in the rendering of trees are their roots. -/
theorem Region.children_ofForest {trees : List Tree} (hw : ∀ tree ∈ trees, Tree.Writable tree)
    (offset : Nat) :
    (ofForest offset trees).children = (Tree.roots offset trees).map Tree.Node.child := by
  rw [ofForest_eq, children_rendering (Tree.wellFormed_ofTrees hw), Forest.roots_ofTrees,
    List.map_map]
  refine List.map_congr_left fun n _ ↦ ?_
  rw [Tree.Node.child, ← Forest.markup_written]
  rfl

end MarkupSelect
