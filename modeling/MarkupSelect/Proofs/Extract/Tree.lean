import MarkupSelect.Proofs.Forest.Trees
import MarkupSelect.Proofs.Text.Collapsed

/-!
# The tree of a rendering

A tree in normal form has texts that white space collapsing leaves alone and that no other text
stands beside. Rendering such a tree and reading the tree of the markup gives the tree back, as long
as no element lies too deep.
-/

namespace MarkupSelect

namespace Tree

/-! ### Normal form -/

/-- Of two trees side by side one is an element. -/
def Apart (a b : Tree) : Prop := a.tag?.isSome = true ∨ b.tag?.isSome = true

/-- A tree in normal form: the elements can be written, the texts are collapsed and hold no `<`,
and no two texts stand side by side. -/
inductive IsNormal : Tree → Prop
  | text {content : Bytes} (hless : Ascii.less ∉ content) (h : content.IsCollapsed) :
      IsNormal (.text content)
  | element {tag : Bytes} {attributes : AttributeMap} {children : List Tree}
      (h : IsWritable tag attributes children) (hapart : children.IsChain Apart)
      (hchildren : ∀ tree ∈ children, IsNormal tree) : IsNormal (.element tag attributes children)

/-- A tree in normal form can be written. -/
theorem IsNormal.writable {tree : Tree} (h : tree.IsNormal) : tree.Writable := by
  induction h with
  | text hless => exact .text hless
  | element h _ _ ih => exact .element h ih

mutual

/-- The number of levels on which a tree has elements. -/
def levels : Tree → Nat
  | .text _ => 0
  | .element _ _ children => levelsOfAll children + 1

/-- The number of levels on which a forest has elements. -/
def levelsOfAll : List Tree → Nat
  | [] => 0
  | tree :: trees => max tree.levels (levelsOfAll trees)

end

/-- No tree has more levels than its forest. -/
theorem levels_le_of_mem {tree : Tree} {trees : List Tree} (h : tree ∈ trees) :
    tree.levels ≤ levelsOfAll trees := by
  induction trees with
  | nil => contradiction
  | cons first trees ih =>
    rw [levelsOfAll]
    rcases List.mem_cons.mp h with rfl | h
    · exact Nat.le_max_left _ _
    · exact Nat.le_trans (ih h) (Nat.le_max_right _ _)

/-! ### The children of a rendering -/

/-- A collapsed gap is one text. -/
theorem ofGap_of_isCollapsed {gap : Bytes} (h : gap.IsCollapsed) : ofGap gap = [.text gap] := by
  rw [ofGap, h.collapse_eq, if_neg (by simpa using h.ne_nil)]

private theorem weave_roots {subtree : Bytes → Tree} {trees : List Tree}
    (hsubtree : ∀ tag attributes children, Tree.element tag attributes children ∈ trees →
      subtree (Tree.element tag attributes children).render = .element tag attributes children)
    (htext : ∀ content, Tree.text content ∈ trees → content.IsCollapsed)
    (hapart : trees.IsChain Apart) (lead gap : Bytes)
    (hgap : gap = [] ∨ ∀ tree ∈ trees.head?, tree.tag?.isSome = true) :
    weave subtree (lead ++ gap ++ renderAll trees) lead.length
        ((roots (lead.length + gap.length) trees).map Node.child) = ofGap gap ++ trees := by
  -- The gap is the text in front of the trees that has been passed but not read yet.
  induction trees generalizing lead gap with
  | nil =>
    rw [renderAll_nil, roots, List.map_nil, weave, List.append_nil, List.append_nil,
      List.drop_left]
  | cons tree trees ih =>
    have hlater := ih (fun t a c hmem ↦ hsubtree t a c (List.mem_cons_of_mem _ hmem))
      (fun c hmem ↦ htext c (List.mem_cons_of_mem _ hmem)) hapart.tail
    cases tree with
    | text content =>
      obtain rfl : gap = [] := by
        apply hgap.resolve_right
        intro h
        exact absurd (h _ rfl) Bool.false_ne_true
      have hnext : ∀ tree ∈ trees.head?, tree.tag?.isSome = true := fun tree htree ↦
        (hapart.rel_head? htree).resolve_left Bool.false_ne_true
      have hread := hlater lead content (.inr hnext)
      rw [ofGap_of_isCollapsed (htext content List.mem_cons_self)] at hread
      rw [roots, renderAll_cons, render_text, List.append_nil, ← List.append_assoc,
        List.length_nil, Nat.add_zero]
      exact hread
    | element tag attributes children =>
      have hread := hlater (lead ++ gap ++ (Tree.element tag attributes children).render) []
        (.inl rfl)
      rw [List.append_nil, List.length_nil, Nat.add_zero] at hread
      have hlen : lead.length + gap.length + (Tree.element tag attributes children).render.length =
          (lead ++ gap ++ (Tree.element tag attributes children).render).length := by
        rw [List.length_append, List.length_append]
      have hpart : ((lead ++ gap ++ renderAll (.element tag attributes children :: trees)).drop
          lead.length).take (lead.length + gap.length - lead.length) = gap := by
        rw [List.append_assoc, List.drop_left, Nat.add_sub_cancel_left, List.take_left]
      rw [roots, List.map_cons, weave]
      dsimp only [Node.child, Node.markup, Node.tree]
      rw [hpart, hsubtree _ _ _ List.mem_cons_self, hlen, renderAll_cons, ← List.append_assoc,
        hread]
      rfl

/-- The children of the rendering of a forest are its trees, if each is read as it was rendered. -/
theorem weave_renderAll {subtree : Bytes → Tree} {trees : List Tree}
    (hnormal : ∀ tree ∈ trees, tree.IsNormal) (hapart : trees.IsChain Apart)
    (hsubtree : ∀ tree ∈ trees, subtree tree.render = tree) :
    weave subtree (renderAll trees) 0 (Region.whole (renderAll trees)).children = trees := by
  have hchildren : (Region.whole (renderAll trees)).children = (roots 0 trees).map Node.child :=
    Region.children_ofForest (fun tree htree ↦ (hnormal tree htree).writable) 0
  have htext : ∀ content, Tree.text content ∈ trees → content.IsCollapsed := by
    intro content hmem
    cases hnormal _ hmem with
    | text _ h => exact h
  rw [hchildren]
  exact weave_roots (fun _ _ _ hmem ↦ hsubtree _ hmem) htext hapart [] [] (.inl rfl)

/-! ### The whole tree -/

/-- The tree of a rendered element has its name and its attributes, and under them what the content
is read as, if it may have content. -/
theorem ofMarkupWithin_markup {n : Node} (hn : n.tree.Writable) (levels : Nat) :
    ofMarkupWithin (levels + 1) n.markup = .element n.tag n.attributes
      (if Tag.isVoid n.tag then []
      else weave (ofMarkupWithin levels) (renderAll n.children) 0
        (Region.whole (renderAll n.children)).children) := by
  have hplain := Node.isWritable hn
  have hstart : StartTag.ofMarkup? n.markup = some n.startTag :=
    Node.ofMarkup?_of_prefix hn n.startTag_prefix
  have hname : n.startTag.lowerName = n.tag := hplain.tag_plain.lower_eq
  rw [ofMarkupWithin, hstart]
  dsimp only
  rw [hname, AttributeMap.ofStartTag_of_renderAll hplain.attributes_plain rfl,
    Parts.ofMarkup?_markup hn]
  cases Tag.isVoid n.tag with
  | true => rfl
  | false => rfl

/-- A tree in normal form with no more levels than are read is read as it was rendered. -/
theorem ofMarkupWithin_render {tree : Tree} (h : tree.IsNormal) {levels : Nat}
    (hlevels : tree.levels ≤ levels) : ofMarkupWithin levels tree.render = tree := by
  induction levels generalizing tree with
  | zero =>
    cases h with
    | text => rw [render_text, ofMarkupWithin]
    | element => exact absurd hlevels (by rw [Tree.levels]; omega)
  | succ levels ih =>
    cases h with
    | @text content hless =>
      have hnone : StartTag.ofMarkup? content = none := by
        rw [Option.eq_none_iff_forall_ne_some]
        intro tag htag
        exact hless ((StartTag.text_prefix_of_ofMarkup? htag).subset List.mem_cons_self)
      rw [render_text, ofMarkupWithin, hnone]
    | @element tag attributes children h hapart hchildren =>
      have hbelow : ∀ tree ∈ children, ofMarkupWithin levels tree.render = tree := by
        intro tree htree
        apply ih (hchildren tree htree)
        rw [Tree.levels] at hlevels
        exact Nat.le_trans (levels_le_of_mem htree) (Nat.le_of_succ_le_succ hlevels)
      have hread := ofMarkupWithin_markup (n := ⟨0, tag, attributes, children⟩)
        (IsNormal.element h hapart hchildren).writable levels
      refine hread.trans (congrArg (element tag attributes) ?_)
      dsimp only
      split
      · next hvoid => exact (h.children_of_isVoid hvoid).symm
      · exact weave_renderAll hchildren hapart hbelow

/-- The tree of a rendering is the tree that was rendered: for every tree in normal form in which no
element lies deeper than elements are read. -/
theorem ofMarkup_render {tree : Tree} (h : tree.IsNormal) (hlevels : tree.levels ≤ maxDepth + 1) :
    ofMarkup tree.render = tree := ofMarkupWithin_render h hlevels

/-- An element within one of its own name, a void element, texts between elements, and attributes
with a value, with an empty value and with none. -/
theorem ofMarkup_render_list :
    let inner : Tree := .element (Bytes.ofString "ul") .empty
      [.text (Bytes.ofString "b > a"), .element (Bytes.ofString "br") .empty []]
    let item : Tree := .element (Bytes.ofString "x_1")
      ⟨[(Bytes.ofString "title", some []), (Bytes.ofString "hidden", none)], by decide⟩ []
    let tree : Tree := .element (Bytes.ofString "ul")
      ⟨[(Bytes.ofString "class", some (Bytes.ofString "a  b/"))], by decide⟩
      [inner, .text (Bytes.ofString " c "), item]
    tree.render = Bytes.ofString
      "<ul class=\"a  b/\"><ul>b > a<br></ul> c <x_1 title=\"\" hidden></x_1></ul>" ∧
    (tree.IsNormal ∧ tree.levels ≤ maxDepth + 1) ∧ ofMarkup tree.render = tree := by
  intro inner item tree
  have hplain : ∀ a ∈ [(Bytes.ofString "class", some (Bytes.ofString "a  b/")),
      (Bytes.ofString "title", some []), (Bytes.ofString "hidden", none)],
      Attribute.IsPlain a := by
    intro a ha
    exact ⟨by revert a; decide, by revert a; decide, by revert a; decide +kernel⟩
  have hbreak : (Tree.element (Bytes.ofString "br") .empty []).IsNormal :=
    .element ⟨Tag.isPlain_of_mem (by decide), fun a ha ↦ by contradiction, fun _ ↦ rfl⟩
      .nil (List.forall_mem_nil _)
  have hinner : inner.IsNormal := by
    refine .element ⟨Tag.isPlain_of_mem (by decide), fun a ha ↦ by contradiction,
      by decide⟩ (.cons_cons (.inr rfl) (.singleton _)) ?_
    simp only [List.forall_mem_cons]
    exact ⟨.text (by decide) ⟨by decide, by decide⟩, hbreak, List.forall_mem_nil _⟩
  have hitem : item.IsNormal :=
    .element ⟨⟨by decide, by decide, by decide⟩, fun a ha ↦ hplain a (List.mem_cons_of_mem _ ha),
      fun _ ↦ rfl⟩ .nil (List.forall_mem_nil _)
  have htree : tree.IsNormal := by
    refine .element ⟨Tag.isPlain_of_mem (by decide),
      fun a ha ↦ hplain a (List.mem_append_left [_, _] ha), by decide⟩
      (.cons_cons (.inl rfl) (.cons_cons (.inr rfl) (.singleton _))) ?_
    simp only [List.forall_mem_cons]
    exact ⟨hinner, .text (by decide) ⟨by decide, by decide⟩, hitem, List.forall_mem_nil _⟩
  have hlevels : tree.levels ≤ maxDepth + 1 := by decide
  exact ⟨by decide, ⟨htree, hlevels⟩, ofMarkup_render htree hlevels⟩

end Tree

end MarkupSelect
