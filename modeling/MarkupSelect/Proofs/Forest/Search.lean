import MarkupSelect.Proofs.Forest.Trees
import MarkupSelect.Proofs.Query.Fits

/-!
# Searching a rendering

Where the start tags that can be found are those of some nodes, every plan finds exactly the nodes
that match its step: nothing that looks like a tag or an attribute but is none, and nothing less.
-/

namespace MarkupSelect

namespace Tree

/-- An element matches a step: its tag name is the one asked for, and every predicate compares one
of its attributes, of which one without a value compares as the empty value. -/
structure Node.Matches (s : Step) (n : Node) : Prop where
  tag : ∀ name ∈ s.tag, n.tag = Bytes.ofString name
  predicates : ∀ p ∈ s.predicates, ∃ value, (Bytes.ofString p.name, value) ∈ n.attributes.entries ∧
    p.operator.apply (value.getD []) (Bytes.ofString p.value) = true

/-- The identifiers among some nodes: each has a value, and no two nodes have one in common. -/
structure DistinctIds (nodes : List Node) : Prop where
  valued : ∀ n ∈ nodes, (Bytes.ofString "id", none) ∉ n.attributes.entries
  unique : ∀ m ∈ nodes, ∀ n ∈ nodes, ∀ id, (Bytes.ofString "id", some id) ∈ m.attributes.entries →
    (Bytes.ofString "id", some id) ∈ n.attributes.entries → m = n

/-- Some of the nodes have distinct identifiers if all have. -/
theorem DistinctIds.mono {nodes others : List Node} (h : DistinctIds nodes)
    (hsub : ∀ n ∈ others, n ∈ nodes) : DistinctIds others := by
  constructor
  · intro n hn
    exact h.valued n (hsub n hn)
  · intro m hm n hn
    exact h.unique m (hsub m hm) n (hsub n hn)

namespace Node

variable {n : Node} {markup : Bytes}

private theorem ofMarkupValid_eq (hn : n.tree.WellFormed)
    (h : StartTag.ofMarkup? markup = some n.startTag) :
    AttributeMap.ofMarkupValid markup = n.attributes :=
  AttributeMap.ofMarkupValid_of_renderAll (isPlain hn).attributes_plain h rfl

private theorem evaluate_iff (hn : n.tree.WellFormed) {p : Predicate}
    (hp : Bytes.IsLowered p.name) :
    p.atom.evaluate n.attributes = true ↔
      ∃ value, (Bytes.ofString p.name, value) ∈ n.attributes.entries ∧
        p.operator.apply (value.getD []) (Bytes.ofString p.value) = true := by
  have hget : ∀ {value}, n.attributes.get? (Bytes.ofString p.name) = some value ↔
      (Bytes.ofString p.name, value) ∈ n.attributes.entries :=
    AttributeMap.get?_eq_some_iff (isPlain hn).attributes_plain hp
  rw [Atom.evaluate, Predicate.atom]
  dsimp only
  constructor
  · intro h
    split at h
    · contradiction
    · next value hvalue => exact ⟨value, hget.mp hvalue, h⟩
  · rintro ⟨value, hmem, h⟩
    rw [hget.mpr hmem]
    exact h

/-- The start tag of a node fits a step exactly if the node matches it. -/
theorem fits_iff (hn : n.tree.WellFormed) (h : StartTag.ofMarkup? markup = some n.startTag)
    {s : Step} (hs : s.IsRead) : s.Fits markup ↔ n.Matches s := by
  have hname : StartTag.nameOf? markup = some n.tag := by
    rw [StartTag.nameOf?, h, Option.map_some, StartTag.lowerName]
    exact congrArg some (isWritable hn.writable).tag_plain.lower_eq
  constructor
  · intro hf
    constructor
    · intro name htag
      have hfound := hf.tag name htag
      rw [hname] at hfound
      exact Option.some.inj hfound
    · intro p hp
      have heval := hf.predicates p hp
      rw [ofMarkupValid_eq hn h] at heval
      exact (evaluate_iff hn (hs.names_lowered p hp)).mp heval
  · intro hm
    constructor
    · intro name htag
      rw [hname, hm.tag name htag]
    · intro p hp
      rw [ofMarkupValid_eq hn h]
      exact (evaluate_iff hn (hs.names_lowered p hp)).mpr (hm.predicates p hp)

end Node

end Tree

namespace Plan

variable {plan : Plan} {r : Region} {s : Step} {n : Tree.Node}

private theorem mem_tagsWith_of_entry (hn : n.tree.WellFormed)
    (hstarts : r.Starts (n.offset, n.startTag.text)) {name : Bytes} {value : Option Bytes}
    (h : (name, value) ∈ n.attributes.entries) : (n.offset, n.startTag.text) ∈ r.tagsWith name := by
  have hplain := Tree.Node.isPlain hn
  obtain ⟨before, after, hsplit⟩ := List.append_of_mem h
  have hattributes : n.startTag.attributes = Attribute.renderAll before ++
      Ascii.space :: (name ++ (Attribute.renderValue value ++ Attribute.renderAll after)) := by
    show Attribute.renderAll n.attributes.entries = _
    rw [hsplit]
    simp [Attribute.renderAll, Attribute.render]
  have hstart : n.startTag.IsPlain := (Tree.Node.isWritable hn.writable).isPlain_startTag
  apply Region.mem_tagsWith_of_starts hstart.isProper hstart.less_not_mem
    (Tag.isKnown_of_mem hplain.tag_known) (hplain.attributes_plain _ h).isName _ hattributes hstarts
  decide

/-- A node that matches a step is among the start tags that the plan of the step tests. -/
theorem offers_of_matches (hp : ofStep? s = some plan) (hn : n.tree.WellFormed)
    (hstarts : r.Starts (n.offset, n.startTag.text)) (hm : n.Matches s) :
    plan.Offers r (n.offset, n.startTag.text) := by
  have hstart : n.startTag.IsPlain := (Tree.Node.isWritable hn.writable).isPlain_startTag
  have hnamed : ∀ name, s.tag = some name →
      (n.offset, n.startTag.text) ∈ r.tagsNamed (Bytes.ofString name) := by
    intro name htag
    rw [← hm.tag name htag]
    exact Region.mem_tagsNamed_of_starts hstart.isProper hstart.less_not_mem hstart.isSpace hstarts
  have hwith : ∀ p ∈ s.predicates, ∀ {name}, p.name = name →
      (n.offset, n.startTag.text) ∈ r.tagsWith (Bytes.ofString name) := by
    rintro p hp _ rfl
    obtain ⟨value, hentry, -⟩ := hm.predicates p hp
    exact mem_tagsWith_of_entry hn hstarts hentry
  cases of_ofStep? hp with
  | tag htag _ => exact hnamed _ htag
  | tagUnder htag => exact hnamed _ htag
  | @id p _ hpreds hid => exact hwith p (by simp [hpreds]) (name_operator_of_isIdentifier hid).1
  | @classes p _ hpreds hall => exact hwith p (by simp [hpreds]) (name_of_asksAllClasses hall)
  | condition _ hne =>
    -- The first predicate is the one anchor.
    obtain ⟨p, preds, hpreds⟩ := List.exists_cons_of_ne_nil hne
    refine ⟨p.name, ?_, hwith p (by simp [hpreds]) rfl⟩
    simp [Condition.anchors, Step.condition, Condition.all, hpreds, Predicate.atom]

/-- Where the start tags are those of some nodes with distinct identifiers, a plan finds the nodes
that match its step. -/
theorem mem_search_iff_matches {nodes : List Tree.Node} (hs : s.IsRead) (hp : ofStep? s = some plan)
    (hw : ∀ n ∈ nodes, n.tree.WellFormed) (hids : Tree.DistinctIds nodes)
    (hstarts : ∀ e, r.Starts e ↔ ∃ n ∈ nodes, e = (n.offset, n.startTag.text)) {e : Nat × Bytes} :
    e ∈ (plan.search r).entries ↔
      ∃ n ∈ nodes, n.Matches s ∧ e = (n.offset, n.startTag.text) := by
  have hself : ∀ n ∈ nodes, StartTag.ofMarkup? n.startTag.text = some n.startTag := fun n hn ↦
    Tree.Node.ofMarkup?_of_prefix (hw n hn).writable (List.prefix_refl _)
  have hget : ∀ n ∈ nodes, ∀ {value},
      (AttributeMap.ofMarkupValid n.startTag.text).get? (Bytes.ofString "id") = some value ↔
        (Bytes.ofString "id", value) ∈ n.attributes.entries := by
    intro n hn value
    rw [Tree.Node.ofMarkupValid_eq (hw n hn) (hself n hn)]
    exact AttributeMap.get?_eq_some_iff (Tree.Node.isPlain (hw n hn)).attributes_plain
      (show Bytes.IsLowered "id" by decide)
  rw [mem_search_iff]
  · constructor
    · rintro ⟨hoffer, haccept⟩
      obtain ⟨n, hn, rfl⟩ := (hstarts e).mp hoffer.starts
      have hfits := fits_of_accepts hs hp hoffer haccept
      exact ⟨n, hn, (Tree.Node.fits_iff (hw n hn) (hself n hn) hs).mp hfits, rfl⟩
    · rintro ⟨n, hn, hm, rfl⟩
      refine ⟨offers_of_matches hp (hw n hn) ((hstarts _).mpr ⟨n, hn, rfl⟩) hm, ?_⟩
      apply accepts_of_fits hp
      · intro hnone
        exact hids.valued n hn ((hget n hn).mp hnone)
      · exact (Tree.Node.fits_iff (hw n hn) (hself n hn) hs).mpr hm
  · intro a b ha hb id hida hidb
    obtain ⟨m, hm, rfl⟩ := (hstarts a).mp ha
    obtain ⟨n, hn, rfl⟩ := (hstarts b).mp hb
    have hma := (hget m hm).mp (Option.join_eq_some_iff.mp hida)
    have hnb := (hget n hn).mp (Option.join_eq_some_iff.mp hidb)
    rw [hids.unique m hm n hn id hma hnb]

end Plan

end MarkupSelect
