import MarkupSelect.Proofs.Forest.Search
import MarkupSelect.Proofs.Query.Stages

/-!
# Queries on a rendering

What a selector selects in a forest is told without any text: each step chooses among the elements
below those that the step before has chosen. A query on the rendering of a well-formed forest finds
exactly the elements that its selector selects in the forest.
-/

namespace MarkupSelect

/-! ### What a selector selects -/

/-- The elements among which a step chooses in a forest: all of them, or the roots alone. -/
def Step.candidates (s : Step) (offset : Nat) (trees : List Tree) : List Tree.Node :=
  match s.combinator with
  | .descendant => Tree.nodesOfAll offset trees
  | .child => Tree.roots offset trees

/-- An alternative selects an element of a forest if its last step matches the element, among the
descendants or the children of an element that the step before has chosen in the same way; the first
step chooses in the forest. -/
inductive Alternative.Selects : Alternative → Nat → List Tree → Tree.Node → Prop
  | last {s : Step} {offset : Nat} {trees : List Tree} {n : Tree.Node}
      (hn : n ∈ s.candidates offset trees) (h : n.Matches s) : Selects [s] offset trees n
  | step {s : Step} {a : Alternative} {offset : Nat} {trees : List Tree} {m n : Tree.Node}
      (hm : m ∈ s.candidates offset trees) (h : m.Matches s)
      (hn : Selects a m.inner m.children n) : Selects (s :: a) offset trees n

/-! ### Parts of a forest -/

/-- A forest that lies in another one, whose rendering begins the document: its trees are
well-formed, and its nodes are nodes of the other. -/
structure Tree.IsPart (forest : List Tree) (offset : Nat) (trees : List Tree) : Prop where
  wellFormed : ∀ tree ∈ trees, tree.WellFormed
  nodes : ∀ n ∈ Tree.nodesOfAll offset trees, n ∈ Tree.nodesOfAll 0 forest

namespace Step

variable {s : Step} {forest trees : List Tree} {offset : Nat} {n : Tree.Node}

/-- What a step chooses among are nodes. -/
theorem mem_nodesOfAll_of_mem_candidates (h : n ∈ s.candidates offset trees) :
    n ∈ Tree.nodesOfAll offset trees := by
  unfold candidates at h
  split at h
  · exact h
  · exact Tree.mem_nodesOfAll_of_mem_roots h

/-- The children of a node are a part of what the node is a part of. -/
theorem isPart_children (h : Tree.IsPart forest offset trees) (hn : n ∈ s.candidates offset trees)
    (hw : ∀ tree ∈ forest, tree.WellFormed) : Tree.IsPart forest n.inner n.children := by
  have hnode := h.nodes n (mem_nodesOfAll_of_mem_candidates hn)
  constructor
  · exact Tree.Node.wellFormed_children (Tree.wellFormed_of_mem hw hnode)
  · intro m hm
    exact Tree.mem_nodesOfAll_trans (Tree.forall_writable hw) hm hnode

/-! ### One region -/

private theorem contains_iff {plan : Plan} (hs : s.IsRead) (hp : Plan.ofStep? s = some plan)
    (hn : n.tree.WellFormed) (hids : Tree.DistinctIds [n]) :
    (plan.search ⟨n.offset, n.startTag.text⟩).contains n.offset = true ↔ n.Matches s := by
  have hone : ∀ m ∈ [n], m.tree.WellFormed := by
    intro m hm
    rw [List.mem_singleton.mp hm]
    exact hn
  have hsearch : ∀ {e}, e ∈ (plan.search ⟨n.offset, n.startTag.text⟩).entries ↔
      ∃ m ∈ [n], m.Matches s ∧ e = (m.offset, m.startTag.text) := by
    apply Plan.mem_search_iff_matches hs hp hone hids
    intro e
    rw [Region.starts_startTag_iff hn.writable]
    simp
  rw [Matches.contains, List.any_eq_true]
  constructor
  · rintro ⟨e, he, -⟩
    obtain ⟨m, hm, hmatch, -⟩ := hsearch.mp he
    rw [← List.mem_singleton.mp hm]
    exact hmatch
  · intro hm
    exact ⟨_, hsearch.mpr ⟨n, List.mem_singleton_self n, hm, rfl⟩, by simp⟩

/-- In the rendering of a forest a plan hits exactly the elements that its step chooses. -/
theorem mem_hitsIn_iff {plan : Plan} (hs : s.IsRead) (hp : Plan.ofStep? s = some plan)
    (hw : ∀ tree ∈ trees, tree.WellFormed) (hids : Tree.DistinctIds (Tree.nodesOfAll offset trees))
    {e : Nat × Bytes} :
    e ∈ hitsIn plan s.combinator (Region.ofForest offset trees) ↔
      ∃ n ∈ s.candidates offset trees, n.Matches s ∧ e = (n.offset, n.markup) := by
  have hnodes : ∀ n ∈ Tree.nodesOfAll offset trees, n.tree.WellFormed := fun n hn ↦
    Tree.wellFormed_of_mem hw hn
  unfold hitsIn candidates
  cases s.combinator with
  | descendant =>
    have hsearch : ∀ {e}, e ∈ (plan.search (Region.ofForest offset trees)).entries ↔
        ∃ n ∈ Tree.nodesOfAll offset trees, n.Matches s ∧ e = (n.offset, n.startTag.text) :=
      Plan.mem_search_iff_matches hs hp hnodes hids fun _ ↦
        Region.starts_ofForest_iff (Tree.forall_writable hw)
    have hexpand : ∀ {n}, n ∈ Tree.nodesOfAll offset trees →
        Element.expand (Tree.renderAll trees) (n.offset - offset) n.startTag.text = n.markup :=
      fun hn ↦ Element.expand_markup (Tree.forall_writable hw) hn
    dsimp only
    rw [Plan.descendants, List.mem_map]
    constructor
    · rintro ⟨d, hd, rfl⟩
      obtain ⟨n, hn, hm, rfl⟩ := hsearch.mp hd
      exact ⟨n, hn, hm, congrArg (n.offset, ·) (hexpand hn)⟩
    · rintro ⟨n, hn, hm, rfl⟩
      exact ⟨_, hsearch.mpr ⟨n, hn, hm, rfl⟩, congrArg (n.offset, ·) (hexpand hn)⟩
  | child =>
    have hroot : ∀ n ∈ Tree.roots offset trees,
        ((plan.search ⟨n.child.offset, n.child.startTag⟩).contains n.child.offset = true ↔
          n.Matches s) := by
      intro n hn
      have hmem := Tree.mem_nodesOfAll_of_mem_roots hn
      apply contains_iff hs hp (hnodes n hmem)
      apply hids.mono
      intro m hm
      rw [List.mem_singleton.mp hm]
      exact hmem
    dsimp only
    rw [Region.children_ofForest (Tree.forall_writable hw), List.mem_map]
    constructor
    · rintro ⟨child, hchild, rfl⟩
      obtain ⟨hmem, hfound⟩ := List.mem_filter.mp hchild
      obtain ⟨n, hn, rfl⟩ := List.mem_map.mp hmem
      exact ⟨n, hn, (hroot n hn).mp hfound, rfl⟩
    · rintro ⟨n, hn, hm, rfl⟩
      exact ⟨n.child, List.mem_filter.mpr ⟨List.mem_map_of_mem hn, (hroot n hn).mpr hm⟩, rfl⟩

end Step

/-! ### Many regions -/

/-- A step chooses an element in one of some forests. -/
def Step.Chooses (s : Step) (scopes : Nat → List Tree → Prop) (n : Tree.Node) : Prop :=
  ∃ offset trees, scopes offset trees ∧ n ∈ s.candidates offset trees ∧ n.Matches s

/-- A forest is that of the children of one of some elements that may have content. -/
def Tree.ChildrenOf (chosen : Tree.Node → Prop) (offset : Nat) (trees : List Tree) : Prop :=
  ∃ n, chosen n ∧ Tag.isVoid n.tag = false ∧ offset = n.inner ∧ trees = n.children

/-- Some regions are the renderings of some forests. -/
def Region.Render (regions : List Region) (scopes : Nat → List Tree → Prop) : Prop :=
  ∀ r, r ∈ regions ↔ ∃ offset trees, scopes offset trees ∧ r = .ofForest offset trees

section Regions

variable {forest : List Tree} {scopes : Nat → List Tree → Prop} {regions : List Region} {s : Step}
  {e : Nat × Bytes}

private theorem eq_of_nodes (hw : ∀ tree ∈ forest, tree.WellFormed) {d e : Nat × Bytes}
    (hd : ∃ n ∈ Tree.nodesOfAll 0 forest, d = (n.offset, n.markup))
    (he : ∃ n ∈ Tree.nodesOfAll 0 forest, e = (n.offset, n.markup)) (h : d.1 = e.1) : d = e := by
  obtain ⟨m, hm, rfl⟩ := hd
  obtain ⟨n, hn, rfl⟩ := he
  rw [Tree.eq_of_offset hw hm hn h]

/-- What a step chooses in parts of a forest is a node of the forest. -/
theorem Step.Chooses.mem_nodesOfAll {n : Tree.Node} (h : s.Chooses scopes n)
    (hparts : ∀ offset trees, scopes offset trees → Tree.IsPart forest offset trees) :
    n ∈ Tree.nodesOfAll 0 forest := by
  obtain ⟨offset, trees, hscope, hn, -⟩ := h
  exact (hparts offset trees hscope).nodes n (mem_nodesOfAll_of_mem_candidates hn)

/-- In the renderings of parts of a forest a step selects exactly the elements that it chooses in
them. -/
theorem Step.mem_select_iff (hs : s.IsRead) (hw : ∀ tree ∈ forest, tree.WellFormed)
    (hids : Tree.DistinctIds (Tree.nodesOfAll 0 forest))
    (hparts : ∀ offset trees, scopes offset trees → Tree.IsPart forest offset trees)
    (hregions : Region.Render regions scopes) :
    e ∈ (s.select regions).entries ↔ ∃ n, s.Chooses scopes n ∧ e = (n.offset, n.markup) := by
  obtain ⟨plan, hp⟩ := Plan.exists_ofStep? hs
  have hhits : ∀ {e}, e ∈ regions.flatMap (hitsIn plan s.combinator) ↔
      ∃ n, s.Chooses scopes n ∧ e = (n.offset, n.markup) := by
    intro e
    rw [List.mem_flatMap]
    constructor
    · rintro ⟨r, hr, he⟩
      obtain ⟨offset, trees, hscope, rfl⟩ := (hregions r).mp hr
      have hpart := hparts offset trees hscope
      obtain ⟨n, hn, hm, rfl⟩ :=
        (mem_hitsIn_iff hs hp hpart.wellFormed (hids.mono hpart.nodes)).mp he
      exact ⟨n, ⟨offset, trees, hscope, hn, hm⟩, rfl⟩
    · rintro ⟨n, ⟨offset, trees, hscope, hn, hm⟩, rfl⟩
      have hpart := hparts offset trees hscope
      refine ⟨_, (hregions _).mpr ⟨offset, trees, hscope, rfl⟩, ?_⟩
      exact (mem_hitsIn_iff hs hp hpart.wellFormed (hids.mono hpart.nodes)).mpr ⟨n, hn, hm, rfl⟩
  have hnode : ∀ e ∈ regions.flatMap (hitsIn plan s.combinator),
      ∃ n ∈ Tree.nodesOfAll 0 forest, e = (n.offset, n.markup) := by
    intro e he
    obtain ⟨n, hn, rfl⟩ := hhits.mp he
    exact ⟨n, hn.mem_nodesOfAll hparts, rfl⟩
  rw [select, hp]
  dsimp only
  rw [Matches.mem_ofList_iff, hhits]
  intro d hd e he
  exact eq_of_nodes hw (hnode d hd) (hnode e he)

/-- The contents of hits are the renderings of the children of the elements hit. -/
theorem Region.render_contents {chosen : Tree.Node → Prop} {hits : Matches}
    (hw : ∀ n, chosen n → n.tree.WellFormed)
    (hhits : ∀ e, e ∈ hits.entries ↔ ∃ n, chosen n ∧ e = (n.offset, n.markup)) :
    Render hits.contents (Tree.ChildrenOf chosen) := by
  intro r
  constructor
  · intro hr
    obtain ⟨e, he, hcontent⟩ := List.mem_filterMap.mp hr
    obtain ⟨n, hn, rfl⟩ := (hhits e).mp he
    rw [content?_markup (hw n hn).writable, Option.ite_none_left_eq_some,
      Bool.not_eq_true] at hcontent
    exact ⟨n.inner, n.children, ⟨n, hn, hcontent.1, rfl, rfl⟩, (Option.some.inj hcontent.2).symm⟩
  · rintro ⟨_, _, ⟨n, hn, hv, rfl, rfl⟩, rfl⟩
    apply List.mem_filterMap.mpr
    refine ⟨_, (hhits _).mpr ⟨n, hn, rfl⟩, ?_⟩
    rw [content?_markup (hw n hn).writable, hv, if_neg (by simp)]

end Regions

/-! ### Alternatives -/

namespace Alternative

private theorem not_selects_nil {a : Alternative} {offset : Nat} {n : Tree.Node} :
    ¬ Selects a offset [] n := by
  have hnone : ∀ (s : Step) (m : Tree.Node), m ∉ s.candidates offset [] := by
    intro s m hm
    have := Step.mem_nodesOfAll_of_mem_candidates hm
    rw [Tree.nodesOfAll_nil] at this
    contradiction
  intro h
  cases h with
  | last hn _ => exact hnone _ _ hn
  | step hm _ _ => exact hnone _ _ hm

/-- An alternative selects an element in one of some forests. -/
def SelectsIn (a : Alternative) (scopes : Nat → List Tree → Prop) (n : Tree.Node) : Prop :=
  ∃ offset trees, scopes offset trees ∧ Selects a offset trees n

section SelectsIn

variable {s t : Step} {a : Alternative} {scopes : Nat → List Tree → Prop} {n : Tree.Node}

/-- A single step selects what it chooses. -/
theorem selectsIn_singleton_iff : SelectsIn [s] scopes n ↔ s.Chooses scopes n := by
  constructor
  · rintro ⟨offset, trees, hscope, h⟩
    cases h with
    | last hn hm => exact ⟨offset, trees, hscope, hn, hm⟩
    | step _ _ hn => cases hn
  · rintro ⟨offset, trees, hscope, hn, hm⟩
    exact ⟨offset, trees, hscope, .last hn hm⟩

/-- The steps behind the first select among the children of what the first chooses. -/
theorem selectsIn_cons_iff (hw : ∀ m, s.Chooses scopes m → m.tree.WellFormed) :
    SelectsIn (s :: t :: a) scopes n ↔
      SelectsIn (t :: a) (Tree.ChildrenOf (s.Chooses scopes)) n := by
  constructor
  · rintro ⟨offset, trees, hscope, h⟩
    cases h with
    | @step _ _ _ _ m _ hm hmatch hn =>
      have hchosen : s.Chooses scopes m := ⟨offset, trees, hscope, hm, hmatch⟩
      refine ⟨m.inner, m.children, ⟨m, hchosen, ?_, rfl, rfl⟩, hn⟩
      -- An element without children has nothing to select.
      rw [Bool.eq_false_iff]
      intro hv
      rw [(Tree.Node.isPlain (hw m hchosen)).children_of_isVoid hv] at hn
      exact not_selects_nil hn
  · rintro ⟨_, _, ⟨m, ⟨offset, trees, hscope, hm, hmatch⟩, -, rfl, rfl⟩, hn⟩
    exact ⟨offset, trees, hscope, .step hm hmatch hn⟩

end SelectsIn

variable {forest : List Tree} {e : Nat × Bytes}

/-- From the renderings of parts of a forest an alternative finds exactly the elements that it
selects in them. -/
theorem mem_found_iff {a : Alternative} (ha : a.IsRead) (hw : ∀ tree ∈ forest, tree.WellFormed)
    (hids : Tree.DistinctIds (Tree.nodesOfAll 0 forest)) {scopes : Nat → List Tree → Prop}
    {regions : List Region}
    (hparts : ∀ offset trees, scopes offset trees → Tree.IsPart forest offset trees)
    (hregions : Region.Render regions scopes) :
    e ∈ (found regions a).entries ↔ ∃ n, a.SelectsIn scopes n ∧ e = (n.offset, n.markup) := by
  induction a generalizing scopes regions with
  | nil => exact absurd rfl ha.ne_nil
  | cons s a ih =>
    have hselect : ∀ e, e ∈ (s.select regions).entries ↔
        ∃ n, s.Chooses scopes n ∧ e = (n.offset, n.markup) := fun e ↦
      Step.mem_select_iff (ha.steps s List.mem_cons_self) hw hids hparts hregions
    cases a with
    | nil => simp only [found_singleton, hselect, selectsIn_singleton_iff]
    | cons t a =>
      have hnodes : ∀ n, s.Chooses scopes n → n.tree.WellFormed := fun n hn ↦
        Tree.wellFormed_of_mem hw (hn.mem_nodesOfAll hparts)
      have hrest : Alternative.IsRead (t :: a) :=
        ⟨List.cons_ne_nil _ _, fun u hu ↦ ha.steps u (List.mem_cons_of_mem _ hu)⟩
      have hinner : ∀ offset trees, Tree.ChildrenOf (s.Chooses scopes) offset trees →
          Tree.IsPart forest offset trees := by
        rintro _ _ ⟨n, ⟨offset, trees, hscope, hn, -⟩, -, rfl, rfl⟩
        exact Step.isPart_children (hparts offset trees hscope) hn hw
      have hlater := ih hrest hinner (Region.render_contents hnodes hselect)
      simp only [selectsIn_cons_iff hnodes]
      rw [found_cons _ _ hrest.ne_nil]
      exact hlater

/-- In the rendering of a well-formed forest an alternative selects the elements that it selects in
the forest. -/
theorem mem_select_renderAll_iff {a : Alternative} (ha : a.IsRead)
    (hw : ∀ tree ∈ forest, tree.WellFormed) (hids : Tree.DistinctIds (Tree.nodesOfAll 0 forest)) :
    e ∈ (a.select (Tree.renderAll forest) .document).entries ↔
      ∃ n, Selects a 0 forest n ∧ e = (n.offset, n.markup) := by
  have hregions : Region.Render [.whole (Tree.renderAll forest)]
      (fun offset trees ↦ offset = 0 ∧ trees = forest) := by
    intro r
    rw [List.mem_singleton]
    constructor
    · rintro rfl
      exact ⟨0, forest, ⟨rfl, rfl⟩, rfl⟩
    · rintro ⟨_, _, ⟨rfl, rfl⟩, rfl⟩
      rfl
  have hparts : ∀ offset trees, offset = 0 ∧ trees = forest → Tree.IsPart forest offset trees := by
    rintro _ _ ⟨rfl, rfl⟩
    exact ⟨hw, fun _ hn ↦ hn⟩
  rw [select_eq_found ha.ne_nil, Context.regions, mem_found_iff ha hw hids hparts hregions]
  constructor
  · rintro ⟨n, ⟨_, _, ⟨rfl, rfl⟩, hn⟩, rfl⟩
    exact ⟨n, hn, rfl⟩
  · rintro ⟨n, hn, rfl⟩
    exact ⟨n, ⟨0, forest, ⟨rfl, rfl⟩, hn⟩, rfl⟩

/-- What an alternative selects is a node of the forest. -/
theorem Selects.mem_nodesOfAll {a : Alternative} {offset : Nat} {trees : List Tree} {n : Tree.Node}
    (h : Selects a offset trees n) (hpart : Tree.IsPart forest offset trees)
    (hw : ∀ tree ∈ forest, tree.WellFormed) : n ∈ Tree.nodesOfAll 0 forest := by
  induction h with
  | last hn _ => exact hpart.nodes _ (Step.mem_nodesOfAll_of_mem_candidates hn)
  | step hm _ _ ih => exact ih (Step.isPart_children hpart hm hw)

end Alternative

namespace Selector

/-- A query for a compiled selector on the rendering of a well-formed forest with distinct
identifiers finds exactly the elements that one of its alternatives selects in the forest, each with
its offset and its rendering. -/
theorem mem_query_renderAll_iff {forest : List Tree} (hw : ∀ tree ∈ forest, tree.WellFormed)
    (hids : Tree.DistinctIds (Tree.nodesOfAll 0 forest)) {text : String} {s : Selector}
    (hs : compile text = .ok s) (offset : Nat) (markup : Bytes) :
    (offset, markup) ∈ (s.query (Tree.renderAll forest) .document).entries ↔
      ∃ a ∈ s.alternatives, ∃ n, a.Selects 0 forest n ∧ offset = n.offset ∧ markup = n.markup := by
  have hselect : ∀ a ∈ s.alternatives, ∀ e,
      e ∈ (a.select (Tree.renderAll forest) .document).entries ↔
        ∃ n, a.Selects 0 forest n ∧ e = (n.offset, n.markup) := fun a ha e ↦
    Alternative.mem_select_renderAll_iff (isRead_of_compile hs a ha) hw hids
  have hnode : ∀ a ∈ s.alternatives, ∀ e,
      e ∈ (a.select (Tree.renderAll forest) .document).entries →
        ∃ n ∈ Tree.nodesOfAll 0 forest, e = (n.offset, n.markup) := by
    intro a ha e he
    obtain ⟨n, hn, rfl⟩ := (hselect a ha e).mp he
    exact ⟨n, hn.mem_nodesOfAll ⟨hw, fun _ h ↦ h⟩ hw, rfl⟩
  rw [query, Matches.mem_foldl_union_iff (fun d e hd he ↦ eq_of_nodes hw hd he) (by simp) hnode]
  constructor
  · rintro (h | ⟨a, ha, he⟩)
    · contradiction
    · obtain ⟨n, hn, heq⟩ := (hselect a ha _).mp he
      rw [Prod.mk.injEq] at heq
      exact ⟨a, ha, n, hn, heq.1, heq.2⟩
  · rintro ⟨a, ha, n, hn, rfl, rfl⟩
    exact .inr ⟨a, ha, (hselect a ha _).mpr ⟨n, hn, rfl⟩⟩

/-- A child of an element with an identifier, found by a class behind other elements: its name
begins with that of a sibling, a void element lies between them, a value looks like the identifier
that is asked for, and a text holds a `>`. -/
theorem mem_query_renderAll_iff_nested :
    let anchor : Tree := .element (Bytes.ofString "a") .empty [.text (Bytes.ofString "y>")]
    let abbr : Tree := .element (Bytes.ofString "abbr")
      ⟨[(Bytes.ofString "class", some (Bytes.ofString "id=a b")), (Bytes.ofString "hidden", none)],
        by decide⟩ []
    let forest : List Tree := [.text (Bytes.ofString "x"), .element (Bytes.ofString "div")
      ⟨[(Bytes.ofString "id", some (Bytes.ofString "a"))], by decide⟩
        [anchor, .element (Bytes.ofString "br") .empty [], abbr]]
    let s : Selector := ⟨"#a > abbr.b", [[⟨none, .descendant, [⟨"id", .equals, "a"⟩]⟩,
      ⟨some "abbr", .child, [⟨"class", .anyWord, "b"⟩]⟩]]⟩
    ((∀ tree ∈ forest, tree.WellFormed) ∧ Tree.DistinctIds (Tree.nodesOfAll 0 forest) ∧
      compile "#a > abbr.b" = .ok s ∧
        (26, abbr.render) ∈ (s.query (Tree.renderAll forest) .document).entries) ∧
      ((26, abbr.render) ∈ (s.query (Tree.renderAll forest) .document).entries ↔
        ∃ a ∈ s.alternatives, ∃ n,
          a.Selects 0 forest n ∧ 26 = n.offset ∧ abbr.render = n.markup) := by
  intro anchor abbr forest s
  have hplain : ∀ a ∈ [(Bytes.ofString "class", some (Bytes.ofString "id=a b")),
      (Bytes.ofString "hidden", none), (Bytes.ofString "id", some (Bytes.ofString "a"))],
      Attribute.IsPlain a := by
    intro a ha
    exact ⟨by revert a; decide, by revert a; decide +kernel, by revert a; decide +kernel⟩
  have hanchor : anchor.WellFormed := by
    refine .element ⟨by decide +kernel, fun a ha ↦ by contradiction, by decide +kernel⟩ ?_
    rw [List.forall_mem_singleton]
    exact .text (by decide)
  have hbreak : (Tree.element (Bytes.ofString "br") .empty []).WellFormed :=
    .element ⟨by decide +kernel, fun a ha ↦ by contradiction, fun _ ↦ rfl⟩ (by simp)
  have habbr : abbr.WellFormed := by
    refine .element ⟨by decide +kernel, fun a ha ↦ hplain a ?_, fun _ ↦ rfl⟩ (by simp)
    exact List.mem_append_left [_] ha
  have hw : ∀ tree ∈ forest, tree.WellFormed := by
    have hinside : ∀ tree ∈ [anchor, .element (Bytes.ofString "br") .empty [], abbr],
        tree.WellFormed := by
      simp only [List.forall_mem_cons]
      exact ⟨hanchor, hbreak, habbr, by simp⟩
    simp only [forest, List.forall_mem_cons]
    refine ⟨.text (by decide), .element ⟨by decide +kernel, fun a ha ↦ hplain a ?_,
      by decide +kernel⟩ hinside, by simp⟩
    exact List.mem_append_right [_, _] ha
  -- The first element alone has an identifier.
  have hroot : ∀ n ∈ Tree.nodesOfAll 0 forest, (Bytes.ofString "id", none) ∉ n.attributes.entries ∧
      (n.offset = 1 ∨ ∀ e ∈ n.attributes.entries, e.1 ≠ Bytes.ofString "id") := by
    simp only [forest, anchor, abbr, Tree.nodesOfAll, Tree.nodes, List.nil_append, List.append_nil,
      List.cons_append, List.forall_mem_cons]
    refine ⟨?_, ?_, ?_, ?_, by simp⟩ <;> decide +kernel
  have hids : Tree.DistinctIds (Tree.nodesOfAll 0 forest) := by
    constructor
    · exact fun n hn ↦ (hroot n hn).1
    · intro m hm n hn id hmid hnid
      apply Tree.eq_of_offset hw hm hn
      rcases (hroot m hm).2 with hmroot | hmroot
      · rcases (hroot n hn).2 with hnroot | hnroot
        · rw [hmroot, hnroot]
        · exact absurd rfl (hnroot _ hnid)
      · exact absurd rfl (hmroot _ hmid)
  have hs : compile "#a > abbr.b" = .ok s := by rfl
  have he : (26, abbr.render) ∈ (s.query (Tree.renderAll forest) .document).entries := by
    decide +kernel
  exact ⟨⟨hw, hids, hs, he⟩, mem_query_renderAll_iff hw hids hs 26 abbr.render⟩

end Selector

end MarkupSelect
