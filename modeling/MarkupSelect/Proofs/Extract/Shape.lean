import MarkupSelect.Proofs.Extract.Tree

/-!
# The shape of trees

Whatever the markup, its tree is cut off at the greatest depth, its tags have names, and the texts
above the cut are collapsed and stand between elements. What is read on one level has this shape,
and so has all that is read below it.
-/

namespace MarkupSelect

namespace Tree

/-- A tree lies in another one, so many levels below its root. -/
inductive LiesAt : (depth : Nat) → (inner outer : Tree) → Prop
  | root (tree : Tree) : LiesAt 0 tree tree
  | child {depth : Nat} {inner child : Tree} {tag : Bytes} {attributes : AttributeMap}
      {children : List Tree} (hchild : child ∈ children) (h : LiesAt depth inner child) :
      LiesAt (depth + 1) inner (.element tag attributes children)

/-! ### One level -/

/-- A run of text gives one collapsed text or nothing. -/
theorem ofGap_cases (gap : Bytes) :
    ofGap gap = [] ∨ ∃ content : Bytes, ofGap gap = [.text content] ∧ content.IsCollapsed := by
  by_cases h : gap.collapse = []
  · left
    rw [ofGap, h]
    rfl
  · right
    refine ⟨gap.collapse, ?_, Bytes.isCollapsed_collapse h⟩
    rw [ofGap, if_neg (by simpa using h)]

/-- What is read from a content is read from one of the children, or a collapsed text. -/
theorem mem_weave {subtree : Bytes → Tree} {content : Bytes} {position : Nat}
    {children : List Child} {tree : Tree} (h : tree ∈ weave subtree content position children) :
    (∃ child ∈ children, tree = subtree child.element) ∨
      ∃ content : Bytes, tree = .text content ∧ content.IsCollapsed := by
  have hgap : ∀ {gap : Bytes}, tree ∈ ofGap gap →
      ∃ content : Bytes, tree = .text content ∧ content.IsCollapsed := by
    intro gap hmem
    rcases ofGap_cases gap with hnone | ⟨content, hone, hcontent⟩
    · rw [hnone] at hmem
      contradiction
    · rw [hone, List.mem_singleton] at hmem
      exact ⟨content, hmem, hcontent⟩
  induction children generalizing position with
  | nil => exact .inr (hgap h)
  | cons child children ih =>
    rw [weave, List.mem_append, List.mem_cons] at h
    rcases h with h | h | h
    · exact .inr (hgap h)
    · exact .inl ⟨child, List.mem_cons_self, h⟩
    · rcases ih h with ⟨other, hother, htree⟩ | h
      · exact .inl ⟨other, List.mem_cons_of_mem _ hother, htree⟩
      · exact .inr h

private theorem isChain_ofGap_append {gap : Bytes} {trees : List Tree}
    (hhead : ∀ tree ∈ trees.head?, tree.tag?.isSome = true) (h : trees.IsChain Apart) :
    (ofGap gap ++ trees).IsChain Apart := by
  rcases ofGap_cases gap with hnone | ⟨content, hone, -⟩
  · rw [hnone]
    exact h
  · rw [hone]
    exact h.cons fun tree htree ↦ .inr (hhead tree htree)

/-- Where the children are read as elements no two texts stand side by side. -/
theorem isChain_weave {subtree : Bytes → Tree} {content : Bytes} {position : Nat}
    {children : List Child}
    (h : ∀ child ∈ children, (subtree child.element).tag?.isSome = true) :
    (weave subtree content position children).IsChain Apart := by
  induction children generalizing position with
  | nil =>
    rw [weave, ← List.append_nil (ofGap _)]
    exact isChain_ofGap_append (fun tree htree ↦ by contradiction) .nil
  | cons child children ih =>
    rw [List.forall_mem_cons] at h
    rw [weave]
    apply isChain_ofGap_append
    · intro tree htree
      rw [← Option.some.inj htree]
      exact h.1
    · exact (ih h.2).cons fun tree _ ↦ .inl h.1

/-! ### All levels -/

/-- The shape of a tree that is read from a start tag, with elements on so many levels; where no
element may lie any more the markup is kept as text. A run of text is collapsed, an element has a
name in lower case, and no two of its children are texts side by side unless elements are kept as
text below it. -/
inductive IsShaped : (levels : Nat) → Tree → Prop
  | raw (content : Bytes) : IsShaped 0 (.text content)
  | text {levels : Nat} {content : Bytes} (h : content.IsCollapsed) :
      IsShaped levels (.text content)
  | element {levels : Nat} {tag : Bytes} {attributes : AttributeMap} {children : List Tree}
      (hname : tag ≠ [] ∧ tag.all Tag.isNameByte = true ∧ tag.lower = tag)
      (hapart : 0 < levels → children.IsChain Apart)
      (hchildren : ∀ child ∈ children, IsShaped levels child) :
      IsShaped (levels + 1) (.element tag attributes children)

private theorem isSome_tag?_ofMarkupWithin {markup : Bytes} {tag : StartTag}
    (h : StartTag.ofMarkup? markup = some tag) {levels : Nat} (hlevels : 0 < levels) :
    (ofMarkupWithin levels markup).tag?.isSome = true := by
  obtain ⟨levels, rfl⟩ := Nat.exists_eq_succ_of_ne_zero (Nat.ne_of_gt hlevels)
  rw [ofMarkupWithin, h]
  rfl

private theorem lowerName_of_ofMarkup? {markup : Bytes} {tag : StartTag}
    (h : StartTag.ofMarkup? markup = some tag) :
    tag.lowerName ≠ [] ∧ tag.lowerName.all Tag.isNameByte = true ∧
      tag.lowerName.lower = tag.lowerName := by
  have hproper := StartTag.isProper_of_ofMarkup? h
  refine ⟨?_, ?_, Bytes.lower_lower _⟩
  · simpa [StartTag.lowerName, Bytes.lower] using hproper.name_ne_nil
  · exact Tag.all_isNameByte_of_lower (Bytes.lower_lower _).symm hproper.name_bytes

/-- The tree of a markup that begins with a start tag has the shape. -/
theorem isShaped_ofMarkupWithin {markup : Bytes} {tag : StartTag}
    (h : StartTag.ofMarkup? markup = some tag) (levels : Nat) :
    IsShaped levels (ofMarkupWithin levels markup) := by
  induction levels generalizing markup tag with
  | zero => exact .raw markup
  | succ levels ih =>
    rw [ofMarkupWithin, h]
    dsimp only
    cases Parts.ofMarkup? markup with
    | none =>
      exact .element (lowerName_of_ofMarkup? h) (fun _ ↦ .nil) (List.forall_mem_nil _)
    | some parts =>
      have hchild : ∀ child ∈ (Region.whole parts.content).children,
          ∃ start, StartTag.ofMarkup? child.element = some start := by
        intro child hmem
        obtain ⟨i, start, -, hstart, -, helement⟩ := Region.mem_children hmem
        exact ⟨start, helement ▸ Element.ofMarkup?_expand hstart⟩
      refine .element (lowerName_of_ofMarkup? h) (fun hlevels ↦ ?_) (fun tree htree ↦ ?_)
      · apply isChain_weave
        intro child hmem
        obtain ⟨start, hstart⟩ := hchild child hmem
        exact isSome_tag?_ofMarkupWithin hstart hlevels
      · rcases mem_weave htree with ⟨child, hmem, rfl⟩ | ⟨content, rfl, hcontent⟩
        · obtain ⟨start, hstart⟩ := hchild child hmem
          exact ih hstart
        · exact .text hcontent

/-- An element of a tree of the shape lies on one of the levels, has a name, and has no texts side
by side above the last level. -/
theorem IsShaped.element_of_liesAt {levels depth : Nat} {tree : Tree} {tag : Bytes}
    {attributes : AttributeMap} {children : List Tree} (h : IsShaped levels tree)
    (hin : LiesAt depth (.element tag attributes children) tree) :
    depth < levels ∧ (tag ≠ [] ∧ tag.all Tag.isNameByte = true ∧ tag.lower = tag) ∧
      (depth + 1 < levels → children.IsChain Apart) := by
  generalize hinner : Tree.element tag attributes children = inner at hin
  induction hin generalizing levels with
  | root tree =>
    subst hinner
    cases h with
    | @element levels _ _ _ hname hapart _ =>
      exact ⟨Nat.zero_lt_succ levels, hname, fun hlevels ↦ hapart (Nat.lt_of_succ_lt_succ hlevels)⟩
  | child hchild hin ih =>
    cases h with
    | element _ _ hchildren =>
      obtain ⟨hdepth, hname, hapart⟩ := ih (hchildren _ hchild) hinner
      exact ⟨Nat.succ_lt_succ hdepth, hname,
        fun hlevels ↦ hapart (Nat.lt_of_succ_lt_succ hlevels)⟩

/-- A text of a tree of the shape is collapsed, above the level on which elements are kept as
text. -/
theorem IsShaped.text_of_liesAt {levels depth : Nat} {tree : Tree} {content : Bytes}
    (h : IsShaped levels tree) (hin : LiesAt depth (.text content) tree) (hdepth : depth < levels) :
    content.IsCollapsed := by
  generalize hinner : Tree.text content = inner at hin
  induction hin generalizing levels with
  | root tree =>
    subst hinner
    cases h with
    | raw => contradiction
    | text h => exact h
  | child hchild hin ih =>
    cases h with
    | element _ _ hchildren =>
      exact ih (hchildren _ hchild) (Nat.lt_of_succ_lt_succ hdepth) hinner

end Tree

/-! ### Values -/

/-- A value lies in another one, at any depth. -/
inductive TextValue.LiesIn : (inner outer : TextValue) → Prop
  | root (value : TextValue) : LiesIn value value
  | item {inner item : TextValue} {items : List TextValue} (hitem : item ∈ items)
      (h : LiesIn inner item) : LiesIn inner (.list items)

/-- Every list in a value, at any depth, has two items at least. -/
def TextValue.Branches (value : TextValue) : Prop :=
  ∀ items, (TextValue.list items).LiesIn value → 2 ≤ items.length

/-- A text has no lists. -/
theorem TextValue.branches_text (content : Bytes) : (TextValue.text content).Branches := by
  intro items h
  cases h

/-- Several values as one make a list of at least two. -/
theorem TextValue.branches_ofItems {items : List TextValue} (h : ∀ item ∈ items, item.Branches) :
    (ofItems items).Branches := by
  unfold ofItems
  split
  · exact branches_text []
  · next item => exact h item (List.mem_singleton_self item)
  · next hnil hone =>
    intro others hin
    cases hin with
    | root =>
      match items, hnil, hone with
      | [], hnil, _ => exact absurd rfl hnil
      | [item], _, hone => exact absurd rfl (hone item)
      | _ :: _ :: items, _, _ => exact Nat.le_add_left 2 items.length
    | item hitem hin => exact h _ hitem others hin

mutual

/-- The values of a tree branch. -/
theorem Tree.branches_values : ∀ tree : Tree, tree.values.Branches
  | .text content => by
    rw [Tree.values]
    exact TextValue.branches_text content
  | .element _ _ children => by
    rw [Tree.values]
    exact TextValue.branches_ofItems (Tree.branches_valuesOfAll children)

/-- The values of trees branch, each by itself. -/
theorem Tree.branches_valuesOfAll :
    ∀ trees : List Tree, ∀ value ∈ Tree.valuesOfAll trees, value.Branches
  | [] => by
    rw [Tree.valuesOfAll]
    exact List.forall_mem_nil _
  | tree :: trees => by
    rw [Tree.valuesOfAll, List.forall_mem_cons]
    exact ⟨Tree.branches_values tree, Tree.branches_valuesOfAll trees⟩

end

/-! ### Any markup -/

/-- The shape of the tree of any markup: no element lies deeper than the greatest depth; tags have
names, in lower case; from the first level below the root down to the greatest depth texts are
collapsed, and none stands beside another; and every list among the values has two items at
least. -/
theorem Tree.shape_ofMarkup (markup : Bytes) :
    (∀ depth tag attributes children, LiesAt depth (.element tag attributes children)
      (ofMarkup markup) → depth ≤ maxDepth ∧
        (tag ≠ [] ∧ tag.all Tag.isNameByte = true ∧ tag.lower = tag) ∧
        (depth + 1 ≤ maxDepth → children.IsChain Apart)) ∧
      (∀ depth content, LiesAt depth (.text content) (ofMarkup markup) → 1 ≤ depth →
        depth ≤ maxDepth → content ≠ [] ∧ content.IsCollapsed) ∧
      ∀ items, (TextValue.list items).LiesIn (ofMarkup markup).values → 2 ≤ items.length := by
  refine ⟨?_, ?_, branches_values (ofMarkup markup)⟩
  · intro depth tag attributes children hin
    cases hstart : StartTag.ofMarkup? markup with
    | none =>
      rw [ofMarkup, ofMarkupWithin, hstart] at hin
      cases hin
    | some start =>
      obtain ⟨hdepth, hname, hapart⟩ :=
        (isShaped_ofMarkupWithin hstart (maxDepth + 1)).element_of_liesAt hin
      exact ⟨Nat.le_of_lt_succ hdepth, hname, fun hlevels ↦ hapart (Nat.lt_succ_of_le hlevels)⟩
  · intro depth content hin hlow hdepth
    cases hstart : StartTag.ofMarkup? markup with
    | none =>
      rw [ofMarkup, ofMarkupWithin, hstart] at hin
      cases hin
      contradiction
    | some start =>
      have hcollapsed := (isShaped_ofMarkupWithin hstart (maxDepth + 1)).text_of_liesAt hin
        (Nat.lt_succ_of_le hdepth)
      exact ⟨hcollapsed.ne_nil, hcollapsed⟩

end MarkupSelect
