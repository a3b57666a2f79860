import MarkupSelect.Proofs.Forest.Extent
import MarkupSelect.Proofs.Locate.Found
import MarkupSelect.Proofs.Query.Stages
import MarkupSelect.Proofs.Selector.Compiled

/-!
# The elements of a name

In a rendering a search for a name finds exactly the nodes of that name, in their order, and a
second search in the contents of what the first has found those of them that lie inside another.
-/

namespace MarkupSelect

namespace Forest

variable {forest : Forest} {name : Bytes} {offset : Nat} {n : Node}

/-- The nodes of a name. -/
def named (name : Bytes) (offset : Nat) (forest : Forest) : List Node :=
  (forest.nodes offset).filter fun n ↦ n.tag.name == name

/-- A node as a match: its offset and its rendering. -/
def Node.entry (n : Node) : Nat × Bytes := (n.offset, n.markup)

/-- The nodes of a name are the nodes that have it. -/
theorem mem_named : n ∈ forest.named name offset ↔ n ∈ forest.nodes offset ∧ n.tag.name = name := by
  rw [named, List.mem_filter, beq_iff_eq]

/-- The nodes of a name ascend. -/
theorem WellFormed.pairwise_named (hw : forest.WellFormed) (name : Bytes) (offset : Nat) :
    (forest.named name offset).Pairwise fun m n ↦ m.offset < n.offset :=
  (hw.pairwise_nodes offset).filter _

/-- As matches they ascend as well. -/
theorem WellFormed.pairwise_entries (hw : forest.WellFormed) (name : Bytes) (offset : Nat) :
    ((forest.named name offset).map Node.entry).Pairwise fun a b ↦ a.1 < b.1 :=
  List.pairwise_map.mpr (hw.pairwise_named name offset)

end Forest

variable {forest : Forest} {name : String} {offset : Nat}

/-- In a rendering a plan for a name finds the nodes of that name. -/
theorem Plan.descendants_rendering (hw : forest.WellFormed) (hname : Bytes.IsLowered name)
    (offset : Nat) :
    (Plan.tag name).descendants (.rendering offset forest) =
      (forest.named (Bytes.ofString name) offset).map Forest.Node.entry := by
  have hsearch : ((Plan.tag name).search (.rendering offset forest)).entries =
      (forest.named (Bytes.ofString name) offset).map fun n ↦ (n.offset, n.tag.text) := by
    apply Matches.entries_eq_of_mem_iff (List.pairwise_map.mpr (hw.pairwise_named _ _))
    intro e
    rw [search, Region.mem_findTags_iff (by simp), Region.mem_tagsNamed_rendering_iff hw hname]
    simp [Forest.mem_named, and_assoc, eq_comm]
  rw [descendants, hsearch, List.map_map]
  refine List.map_congr_left fun n hn ↦ ?_
  exact congrArg (n.offset, ·) (Element.expand_node hw (Forest.mem_named.mp hn).1)

/-- The contents of nodes that are hit are the renderings of their children, if they may have
some. -/
theorem Matches.mem_contents_iff (hw : forest.WellFormed) {hits : Matches}
    {nodes : List Forest.Node} (hhits : hits.entries = nodes.map Forest.Node.entry)
    (hnodes : ∀ n ∈ nodes, n ∈ forest.nodes offset) {r : Region} :
    r ∈ hits.contents ↔
      ∃ n ∈ nodes, Tag.isVoid n.tag.name = false ∧ r = .rendering n.inner n.children := by
  have hcontent : ∀ n ∈ nodes, Region.content? n.offset n.markup = some r ↔
      Tag.isVoid n.tag.name = false ∧ r = .rendering n.inner n.children := by
    intro n hn
    rw [Region.content?_node (hw.of_mem (hnodes n hn)), Option.ite_none_left_eq_some,
      Bool.not_eq_true, Option.some.injEq, eq_comm (a := r)]
  rw [contents, hhits, List.filterMap_map, List.mem_filterMap]
  exact exists_congr fun n ↦ and_congr_right fun hn ↦ hcontent n hn

namespace Step

/-- The step to the descendants of a name. -/
def ofName (name : String) : Step := ⟨some name, .descendant, []⟩

/-- In a rendering the step selects the nodes of that name. -/
theorem select_rendering (hw : forest.WellFormed) (hname : Bytes.IsLowered name) (offset : Nat) :
    ((ofName name).select [.rendering offset forest]).entries =
      (forest.named (Bytes.ofString name) offset).map Forest.Node.entry := by
  have hselect : (ofName name).select [.rendering offset forest] =
      .ofList ((Plan.tag name).descendants (.rendering offset forest)) := by
    rw [select]
    exact congrArg Matches.ofList (List.flatMap_singleton _ _)
  rw [hselect, Plan.descendants_rendering hw hname,
    Matches.entries_ofList (hw.pairwise_entries _ _)]

/-- In the contents of some nodes of a forest the step selects the nodes of that name which lie
inside one of them. -/
theorem mem_select_contents_iff (hw : forest.WellFormed) (hname : Bytes.IsLowered name)
    {hits : Matches} {nodes : List Forest.Node} (hhits : hits.entries = nodes.map Forest.Node.entry)
    (hnodes : ∀ n ∈ nodes, n ∈ forest.nodes offset) {e : Nat × Bytes} :
    e ∈ ((ofName name).select hits.contents).entries ↔
      ∃ n ∈ nodes, ∃ k ∈ n.children.named (Bytes.ofString name) n.inner, k.entry = e := by
  have hfound : ∀ {e}, e ∈ hits.contents.flatMap (hitsIn (.tag name) .descendant) ↔
      ∃ n ∈ nodes, ∃ k ∈ n.children.named (Bytes.ofString name) n.inner, k.entry = e := by
    intro e
    rw [List.mem_flatMap]
    constructor
    · rintro ⟨r, hr, he⟩
      obtain ⟨n, hn, -, rfl⟩ := (Matches.mem_contents_iff hw hhits hnodes).mp hr
      rw [hitsIn, Plan.descendants_rendering (hw.of_mem (hnodes n hn)).children hname,
        List.mem_map] at he
      exact ⟨n, hn, he⟩
    · rintro ⟨n, hn, k, hk, rfl⟩
      have hwritten := hw.of_mem (hnodes n hn)
      have hvoid : Tag.isVoid n.tag.name = false := by
        rw [Bool.eq_false_iff]
        intro hv
        rw [hwritten.written.children_of_isVoid hv] at hk
        contradiction
      refine ⟨_, (Matches.mem_contents_iff hw hhits hnodes).mpr ⟨n, hn, hvoid, rfl⟩, ?_⟩
      rw [hitsIn, Plan.descendants_rendering hwritten.children hname]
      exact List.mem_map_of_mem hk
  have hselect : (ofName name).select hits.contents =
      .ofList (hits.contents.flatMap (hitsIn (.tag name) .descendant)) := rfl
  rw [hselect, Matches.mem_ofList_iff, hfound]
  -- All of them are nodes of the one forest.
  have hnode : ∀ e ∈ hits.contents.flatMap (hitsIn (.tag name) .descendant),
      e ∈ (forest.nodes offset).map Forest.Node.entry := by
    intro e he
    obtain ⟨n, hn, k, hk, rfl⟩ := hfound.mp he
    exact List.mem_map_of_mem (Forest.mem_nodes_trans (Forest.mem_named.mp hk).1 (hnodes n hn))
  have hascending : ((forest.nodes offset).map Forest.Node.entry).Pairwise fun a b ↦ a.1 < b.1 :=
    List.pairwise_map.mpr (hw.pairwise_nodes offset)
  intro a ha b hb hab
  exact Matches.consistent_entries ⟨_, hascending⟩ a (hnode a ha) b (hnode b hb) hab

end Step

/-! ### One inside another -/

/-- In the rendering of one element of a name the selector for two steps to that name selects the
elements of the name inside it. -/
theorem Alternative.select_nested {n : Forest.Node} (hn : n.WellFormed)
    (hname : Bytes.IsLowered name) (htag : n.tag.name = Bytes.ofString name) :
    (select [Step.ofName name, Step.ofName name] n.markup .document).entries =
      (n.children.named (Bytes.ofString name) n.tag.length).map Forest.Node.entry := by
  have hforest : (Forest.element n.tag n.children .empty).WellFormed :=
    .element hn.written hn.children .empty
  have hregion : Region.whole n.markup =
      .rendering 0 (.element n.tag n.children .empty) := by
    rw [Region.rendering, Forest.render, Forest.render, List.append_nil]
    rfl
  rw [select_eq_found (List.cons_ne_nil _ _), Context.regions, hregion,
    found_cons _ _ (List.cons_ne_nil _ _), found_singleton]
  apply Matches.entries_eq_of_mem_iff (hn.children.pairwise_entries _ _)
  intro e
  rw [Step.mem_select_contents_iff hforest hname (Step.select_rendering hforest hname 0)
    fun m hm ↦ (Forest.mem_named.mp hm).1, List.mem_map]
  constructor
  · rintro ⟨m, hm, k, hk, rfl⟩
    obtain ⟨hknode, hktag⟩ := Forest.mem_named.mp hk
    have hinside : k ∈ n.children.nodes (0 + n.tag.length) := by
      rcases Forest.mem_nodes_element.mp (Forest.mem_named.mp hm).1 with rfl | hm | hm
      · exact hknode
      · exact Forest.mem_nodes_trans hknode hm
      · contradiction
    rw [Nat.zero_add] at hinside
    exact ⟨k, Forest.mem_named.mpr ⟨hinside, hktag⟩, rfl⟩
  · rintro ⟨k, hk, rfl⟩
    have hself : (⟨0, n.tag, n.children⟩ : Forest.Node) ∈
        (Forest.element n.tag n.children .empty).named (Bytes.ofString name) 0 :=
      Forest.mem_named.mpr ⟨Forest.mem_nodes_element.mpr (.inl rfl), htag⟩
    refine ⟨_, hself, k, ?_, rfl⟩
    rw [Forest.Node.inner, Nat.zero_add]
    exact hk

end MarkupSelect
