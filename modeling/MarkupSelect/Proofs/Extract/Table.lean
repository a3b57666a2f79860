import MarkupSelect.Extract.Table
import MarkupSelect.Proofs.Forest.Named

/-!
# The tables of a rendering

Every table of a forest is extracted once, wherever it lies, and the tables inside it are cut out of
it: what is read is the rendering of the table with its forest left as it is but for those.
-/

namespace MarkupSelect

namespace Forest

variable {forest : Forest} {name : Bytes} {offset : Nat} {n : Node}

/-- A forest without the elements of a name, at any depth. -/
def without (name : Bytes) : Forest → Forest
  | empty => .empty
  | text content rest => .text content (rest.without name)
  | element tag children rest =>
    if tag.name = name then rest.without name
    else .element tag (children.without name) (rest.without name)

/-- The rendering of an element without the elements of a name inside it. -/
def Node.markupWithout (name : Bytes) (n : Node) : Bytes :=
  n.tag.element (n.children.without name).render

/-- An element can be written without some of those inside it. -/
theorem IsWritten.without {tag : StartTag} {children : Forest} (h : IsWritten tag children)
    (name : Bytes) : IsWritten tag (children.without name) := by
  refine ⟨h.tag_plain, fun hv ↦ ?_⟩
  rw [h.children_of_isVoid hv, Forest.without]

/-- The matches of a name in a forest begin in its rendering. -/
theorem WellFormed.entry_bounds (hw : forest.WellFormed) {e : Nat × Bytes}
    (he : e ∈ (forest.named name offset).map Node.entry) :
    offset ≤ e.1 ∧ e.1 < offset + forest.render.length := by
  obtain ⟨n, hn, rfl⟩ := List.mem_map.mp he
  have hbounds := hw.bounds (mem_named.mp hn).1
  have hpos := n.length_markup_pos
  dsimp only [Node.entry]
  omega

/-- What follows a forest lies behind its beginning, and so do the matches in it. -/
theorem WellFormed.le_of_mem (hw : forest.WellFormed) (name : Bytes)
    {elements : List (Nat × Bytes)} (h : ∀ e ∈ elements, offset + forest.render.length ≤ e.1) :
    ∀ e ∈ (forest.named name offset).map Node.entry ++ elements, offset ≤ e.1 := by
  rw [List.forall_mem_append]
  exact ⟨fun e he ↦ (hw.entry_bounds he).1,
    fun e he ↦ Nat.le_trans (Nat.le_add_right _ _) (h e he)⟩

/-- The nodes of a name that an element begins are the element, if it is one, those inside it and
those behind it. -/
theorem named_element (tag : StartTag) (children rest : Forest) :
    named name offset (.element tag children rest) =
      (if tag.name = name then [⟨offset, tag, children⟩] else []) ++
        (children.named name (offset + tag.length) ++
          rest.named name (offset + (tag.element children.render).length)) := by
  rw [named, nodes, List.filter_cons, List.filter_append, named, named]
  simp only [beq_iff_eq]
  split
  · rfl
  · rfl

end Forest

namespace Table

/-! ### Cutting out -/

variable {text piece tail : Bytes} {position : Nat} {elements : List (Nat × Bytes)}

private theorem drop_add_of_drop (h : text.drop position = piece ++ tail) :
    text.drop (position + piece.length) = tail := by
  rw [← List.drop_drop, h, List.drop_left]

/-- What lies in front of all elements stays. -/
theorem cutOut_of_drop (h : text.drop position = piece ++ tail)
    (hbehind : ∀ e ∈ elements, position + piece.length ≤ e.1) :
    cutOut text position elements = piece ++ cutOut text (position + piece.length) elements := by
  cases elements with
  | nil => rw [cutOut, cutOut, drop_add_of_drop h, h]
  | cons e elements =>
    have hle := hbehind e List.mem_cons_self
    have hskip : e.1 - position - piece.length = e.1 - (position + piece.length) := by omega
    have hfirst : piece.take (e.1 - position) = piece := List.take_of_length_le (by omega)
    rw [cutOut, cutOut, if_neg (by omega), if_neg (by omega), drop_add_of_drop h, h,
      List.take_append, hskip, hfirst, List.append_assoc]

/-- An element at the position is cut out. -/
theorem cutOut_first (text : Bytes) (position : Nat) (element : Bytes)
    (elements : List (Nat × Bytes)) :
    cutOut text position ((position, element) :: elements) =
      cutOut text (position + element.length) elements := by
  rw [cutOut, if_neg (Nat.lt_irrefl _), Nat.sub_self, List.take_zero, List.nil_append]

/-- Elements in what is done with are passed over. -/
theorem cutOut_append_of_lt {inside : List (Nat × Bytes)} (h : ∀ e ∈ inside, e.1 < position) :
    cutOut text position (inside ++ elements) = cutOut text position elements := by
  induction inside with
  | nil => rfl
  | cons e inside ih =>
    rw [List.forall_mem_cons] at h
    rw [List.cons_append, cutOut, if_pos h.1, ih h.2]

/-- Cutting the nodes of a name out of a forest leaves the forest without them, wherever it stands
in a text and whatever is cut out behind it. -/
def CutsTo (name : Bytes) (forest : Forest) : Prop :=
  ∀ {text tail : Bytes} {position : Nat} {elements : List (Nat × Bytes)},
    text.drop position = forest.render ++ tail →
      (∀ e ∈ elements, position + forest.render.length ≤ e.1) →
        cutOut text position ((forest.named name position).map Forest.Node.entry ++ elements) =
          (forest.without name).render ++ cutOut text (position + forest.render.length) elements

/-- Of an element that stays the start tag stays, and the end tag behind what stays of the
children. -/
theorem cutOut_element {tag : StartTag} {children : Forest} {name : Bytes}
    (hwritten : Forest.IsWritten tag children) (hchildren : children.WellFormed)
    (hcuts : CutsTo name children)
    (h : text.drop position = tag.element children.render ++ tail)
    (hbehind : ∀ e ∈ elements, position + (tag.element children.render).length ≤ e.1) :
    cutOut text position
        ((children.named name (position + tag.length)).map Forest.Node.entry ++ elements) =
      tag.element (children.without name).render ++
        cutOut text (position + (tag.element children.render).length) elements := by
  have hopening : text.drop position =
      tag.text ++ (children.render ++ (tag.closing ++ tail)) := by
    rw [h, hwritten.element_eq, List.append_assoc, List.append_assoc]
  have hinner := drop_add_of_drop hopening
  have hclosing := drop_add_of_drop hinner
  rw [hwritten.element_eq, List.length_append, List.length_append, ← Nat.add_assoc,
    ← Nat.add_assoc] at hbehind ⊢
  have hinside : ∀ e ∈ elements,
      position + tag.text.length + children.render.length ≤ e.1 := fun e he ↦
    Nat.le_trans (Nat.le_add_right _ _) (hbehind e he)
  rw [StartTag.length, cutOut_of_drop hopening (hchildren.le_of_mem name hinside),
    hcuts hinner hinside, cutOut_of_drop hclosing hbehind, (hwritten.without name).element_eq]
  simp only [List.append_assoc]

/-- The nodes of a name can be cut out of every well-formed forest. -/
theorem cutsTo {forest : Forest} (hw : forest.WellFormed) (name : Bytes) : CutsTo name forest := by
  induction hw with
  | empty => exact fun _ _ ↦ rfl
  | @text content rest _ hrest ih =>
    intro text tail position elements h hbehind
    have hsplit : text.drop position = content ++ (rest.render ++ tail) := by
      rw [h, Forest.render, List.append_assoc]
    rw [Forest.render, List.length_append, ← Nat.add_assoc] at hbehind ⊢
    rw [Forest.without, Forest.render, List.append_assoc, ← ih (drop_add_of_drop hsplit) hbehind]
    exact cutOut_of_drop hsplit (hrest.le_of_mem name hbehind)
  | @element tag children rest hwritten hchildren hrest ihc ihr =>
    intro text tail position elements h hbehind
    have hsplit : text.drop position = tag.element children.render ++ (rest.render ++ tail) := by
      rw [h, Forest.render, List.append_assoc]
    rw [Forest.render, List.length_append, ← Nat.add_assoc] at hbehind ⊢
    rw [Forest.named_element, List.map_append, List.map_append, List.append_assoc,
      List.append_assoc, Forest.without]
    split
    · -- The element is cut out, and those inside it with it.
      have hinside : ∀ e ∈ (children.named name (position + tag.length)).map Forest.Node.entry,
          e.1 < position + (tag.element children.render).length := by
        intro e he
        have hbounds := (hchildren.entry_bounds he).2
        rw [hwritten.element_eq, List.length_append, List.length_append, ← StartTag.length]
        omega
      rw [← ihr (drop_add_of_drop hsplit) hbehind, ← cutOut_append_of_lt hinside]
      exact cutOut_first text position _ _
    · rw [List.map_nil, List.nil_append,
        cutOut_element hwritten hchildren ihc hsplit (hrest.le_of_mem name hbehind),
        ihr (drop_add_of_drop hsplit) hbehind, Forest.render, List.append_assoc]

/-- The markup of a table without the tables inside it is the rendering of what stays. -/
theorem withoutNested_markup {n : Forest.Node} (hn : n.WellFormed)
    (htag : n.tag.name = Bytes.ofString "table") :
    withoutNested n.markup = n.markupWithout (Bytes.ofString "table") := by
  have hcompile : Selector.compile "table table" =
      .ok ⟨"table table", [[.ofName "table", .ofName "table"]]⟩ := by rfl
  have hquery : (queryText n.markup .document "table table").entries =
      (n.children.named (Bytes.ofString "table") (0 + n.tag.length)).map Forest.Node.entry := by
    rw [queryText, hcompile, Nat.zero_add]
    dsimp only
    rw [Selector.query_of_singleton rfl]
    exact Alternative.select_nested hn (by decide) htag
  have hwhole : n.markup.drop 0 = n.tag.element n.children.render ++ [] := by
    rw [List.drop_zero, List.append_nil, Forest.Node.markup]
  have hcut := cutOut_element hn.written hn.children (cutsTo hn.children (Bytes.ofString "table"))
    hwhole (List.forall_mem_nil _)
  rw [List.append_nil, cutOut, drop_add_of_drop hwhole, List.append_nil] at hcut
  rw [withoutNested, hquery, hcut, Forest.Node.markupWithout]

/-! ### The tables of a document -/

/-- The tables of a rendering are its nodes of that name. -/
theorem all_render {forest : Forest} (hw : forest.WellFormed) :
    (all (.ofDocument forest.render)).entries =
      (forest.named (Bytes.ofString "table") 0).map Forest.Node.entry := by
  have hclaims : all (.ofDocument forest.render) =
      .ofList ((Plan.tag "table").descendants (.rendering 0 forest)) :=
    congrArg Matches.ofList (List.flatMap_singleton _ _)
  rw [hclaims, Plan.descendants_rendering hw (by decide),
    Matches.entries_ofList (hw.pairwise_entries _ _)]

/-- Every table of a forest is extracted once, in ascending order of the offsets at which the tables
stand in the rendering, and what is read of it is its rendering without the tables inside it, at any
depth. -/
theorem trees_render {forest : Forest} (hw : forest.WellFormed) :
    let tables := forest.named (Bytes.ofString "table") 0
    (tables.Pairwise (fun m n ↦ m.offset < n.offset) ∧
      ∀ n ∈ tables, n.markup.StandsAt n.offset forest.render) ∧
      trees (.ofDocument forest.render) =
        tables.map (fun n ↦ (n.offset, .ofMarkup (n.markupWithout (Bytes.ofString "table")))) ∧
      values (.ofDocument forest.render) =
        tables.map (fun n ↦
          (n.offset, (Tree.ofMarkup (n.markupWithout (Bytes.ofString "table"))).values)) := by
  intro tables
  have htrees : trees (.ofDocument forest.render) =
      tables.map (fun n ↦ (n.offset, .ofMarkup (n.markupWithout (Bytes.ofString "table")))) := by
    rw [trees, all_render hw, List.map_map]
    refine List.map_congr_left fun n hn ↦ ?_
    obtain ⟨hnode, htag⟩ := Forest.mem_named.mp hn
    rw [← withoutNested_markup (hw.of_mem hnode) htag]
    rfl
  refine ⟨⟨hw.pairwise_named _ _, fun n hn ↦ ?_⟩, htrees, ?_⟩
  · exact Region.holds_whole.mp (Region.holds_node hw (Forest.mem_named.mp hn).1)
  · rw [values, htrees, List.map_map]
    rfl

/-- A table with an attribute written twice, and in it, inside an element of a similar name and
behind a void element, a table that itself has one. -/
theorem trees_render_nested :
    let start (name : String) (attributes : List String) : StartTag :=
      ⟨Bytes.ofString name, (attributes.map Bytes.ofString).flatten⟩
    let inside : Forest := .text (Bytes.ofString "b>") (.element (start "table_1" [])
      (.element (start "br" []) .empty (.element (start "table" [])
        (.element (start "table" []) .empty .empty) (.text (Bytes.ofString "c") .empty))) .empty)
    let forest : Forest := .text (Bytes.ofString "a")
      (.element (start "table" [" A-1=\"x\"", " a-1='y'"]) inside .empty)
    let tables := forest.named (Bytes.ofString "table") 0
    (forest.WellFormed ∧
      forest.render = Bytes.ofString ("a<table A-1=\"x\" a-1='y'>b><table_1><br>" ++
        "<table><table></table></table>c</table_1></table>") ∧
      tables.map (fun n ↦ (n.offset, n.markupWithout (Bytes.ofString "table"))) =
        [(1, Bytes.ofString "<table A-1=\"x\" a-1='y'>b><table_1><br>c</table_1></table>"),
          (39, Bytes.ofString "<table></table>"), (46, Bytes.ofString "<table></table>")]) ∧
      (tables.Pairwise (fun m n ↦ m.offset < n.offset) ∧
        ∀ n ∈ tables, n.markup.StandsAt n.offset forest.render) ∧
        trees (.ofDocument forest.render) =
          tables.map (fun n ↦ (n.offset, .ofMarkup (n.markupWithout (Bytes.ofString "table")))) ∧
        values (.ofDocument forest.render) =
          tables.map (fun n ↦
            (n.offset, (Tree.ofMarkup (n.markupWithout (Bytes.ofString "table"))).values)) := by
  intro start inside forest tables
  have htable : Tag.IsPlain (Bytes.ofString "table") := ⟨by decide, by decide, by decide⟩
  have hempty : ∀ {name}, Tag.IsPlain (Bytes.ofString name) → (start name []).IsPlain := fun h ↦
    StartTag.isPlain_flatten h (List.forall_mem_nil _) (List.forall_mem_nil _)
      (List.forall_mem_nil _)
  have hinside : inside.WellFormed := by
    refine .text (by decide) (.element ⟨hempty ⟨by decide, by decide, by decide⟩, by decide⟩
      (.element ⟨hempty ⟨by decide, by decide, by decide⟩, fun _ ↦ rfl⟩ .empty ?_) .empty)
    exact .element ⟨hempty htable, by decide⟩
      (.element ⟨hempty htable, fun _ ↦ rfl⟩ .empty .empty) (.text (by decide) .empty)
  have hw : forest.WellFormed := by
    refine .text (by decide) (.element ⟨?_, by decide⟩ hinside .empty)
    exact StartTag.isPlain_flatten htable (by decide) (by decide) (by decide)
  exact ⟨⟨hw, by decide, by decide +kernel⟩, trees_render hw⟩

end Table

end MarkupSelect
