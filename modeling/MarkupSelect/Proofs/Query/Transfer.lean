import Mathlib.Data.List.Forall2
import MarkupSelect.Query.Basic

/-!
# Carrying a query over

A transfer moves every offset on by a distance and rewrites every text. If it goes through the
searches of the plans and through the structure of elements, it goes through a whole query: the
steps, the alternatives and their union, of which the first claim for an offset stands on both
sides.
-/

namespace MarkupSelect

/-- A way to carry over what lies in one document to another: by how much an offset grows, and what
becomes of a text. -/
structure Transfer where
  distance : Nat
  rewrite : Bytes → Bytes

/-- An entry carried over. -/
def Transfer.entry (t : Transfer) (e : Nat × Bytes) : Nat × Bytes :=
  (e.1 + t.distance, t.rewrite e.2)

/-- A region carried over. -/
def Region.carry (t : Transfer) (r : Region) : Region := ⟨r.base + t.distance, t.rewrite r.text⟩

/-- A child carried over. -/
def Child.carry (t : Transfer) (c : Child) : Child :=
  ⟨c.offset + t.distance, t.rewrite c.startTag, t.rewrite c.element⟩

variable {t : Transfer}

/-! ### Matches -/

namespace Matches

/-- Matches carried over. -/
def carry (t : Transfer) (m : Matches) : Matches :=
  ⟨m.entries.map t.entry, List.pairwise_map.mpr (m.ascending.imp fun h ↦ Nat.add_lt_add_right h _)⟩

@[simp] theorem entries_carry (m : Matches) : (m.carry t).entries = m.entries.map t.entry := rfl

/-- An offset is claimed after the transfer exactly if it was before. -/
@[simp] theorem contains_carry (m : Matches) (offset : Nat) :
    (m.carry t).contains (offset + t.distance) = m.contains offset := by
  rw [contains, contains, entries_carry, List.any_map]
  congr 1
  funext e
  simp [Transfer.entry]

/-- A transfer leaves nothing out. -/
@[simp] theorem isEmpty_carry (m : Matches) : (m.carry t).isEmpty = m.isEmpty := by
  rw [isEmpty, isEmpty, entries_carry, List.isEmpty_map]

private theorem place_map (offset : Nat) (markup : Bytes) (entries : List (Nat × Bytes)) :
    place (offset + t.distance) (t.rewrite markup) (entries.map t.entry) =
      (place offset markup entries).map t.entry := by
  induction entries with
  | nil => rfl
  | cons e entries ih =>
    rw [List.map_cons, place, place]
    simp only [Transfer.entry, Nat.add_lt_add_iff_right, Nat.add_right_cancel_iff]
    split
    · rfl
    split
    · rfl
    · exact congrArg (t.entry e :: ·) ih

/-- A claim carried over is a claim in what was carried over. -/
theorem carry_insert (m : Matches) (offset : Nat) (markup : Bytes) :
    (m.insert offset markup).carry t =
      (m.carry t).insert (offset + t.distance) (t.rewrite markup) :=
  ext_entries (place_map offset markup m.entries).symm

/-- A single element carried over is a single element. -/
theorem carry_singleton (offset : Nat) (markup : Bytes) :
    (singleton offset markup).carry t = singleton (offset + t.distance) (t.rewrite markup) :=
  carry_insert empty offset markup

/-- Claims carried over are claims in what was carried over. -/
theorem carry_insertAll (m : Matches) (claims : List (Nat × Bytes)) :
    (m.insertAll claims).carry t = (m.carry t).insertAll (claims.map t.entry) := by
  induction claims generalizing m with
  | nil => rfl
  | cons e claims ih =>
    rw [insertAll_cons, ih, carry_insert]
    rfl

/-- The matches of claims carried over are those of the claims, carried over. -/
theorem carry_ofList (claims : List (Nat × Bytes)) :
    (ofList claims).carry t = ofList (claims.map t.entry) := carry_insertAll empty claims

/-- A union carried over is the union of what was carried over. -/
theorem carry_union (m n : Matches) : (m.union n).carry t = (m.carry t).union (n.carry t) :=
  carry_insertAll m n.entries

/-- A union of many sets is carried over if each is. -/
theorem foldl_union_carry {α β : Type} {search : α → Matches} {search' : β → Matches} {as : List α}
    {bs : List β} (h : List.Forall₂ (fun a b ↦ search' b = (search a).carry t) as bs)
    (found : Matches) :
    bs.foldl (fun found b ↦ found.union (search' b)) (found.carry t) =
      (as.foldl (fun found a ↦ found.union (search a)) found).carry t := by
  induction h generalizing found with
  | nil => rfl
  | cons hhead _ ih => rw [List.foldl_cons, List.foldl_cons, hhead, ← carry_union, ih]

end Matches

/-! ### Searches -/

/-- Filters that give the same answers keep the same candidates. -/
theorem Filter.run_carry {σ : Type} {filter filter' : Filter σ}
    (h : ∀ state tag, filter' state (t.rewrite tag) = filter state tag) (state : σ) (kept : Matches)
    (candidates : List (Nat × Bytes)) :
    (filter'.run state (kept.carry t) (candidates.map t.entry)).1 =
      (filter.run state kept candidates).1.carry t := by
  induction candidates generalizing state kept with
  | nil => rfl
  | cons e candidates ih =>
    rw [List.map_cons, Transfer.entry, run, run, Matches.contains_carry, h]
    split
    · exact ih state kept
    · split
      · exact ih _ kept
      · rw [← Matches.carry_insert]
        exact ih _ _
      · exact (Matches.carry_insert kept e.1 e.2).symm

namespace Region

variable {r : Region} {name name' : Bytes} {verdict verdict' : Bytes → Verdict}

private theorem ofVerdict_carry (h : ∀ tag, verdict' (t.rewrite tag) = verdict tag) (state : Unit)
    (tag : Bytes) :
    Filter.ofVerdict verdict' state (t.rewrite tag) = Filter.ofVerdict verdict state tag := by
  rw [Filter.ofVerdict, Filter.ofVerdict, h]

/-- A search by tag name is carried over if its candidates and its verdicts are. -/
theorem findTags_carry (hverdict : ∀ tag, verdict' (t.rewrite tag) = verdict tag)
    (hcandidates : (r.carry t).tagsNamed name' = (r.tagsNamed name).map t.entry) :
    (r.carry t).findTags name' verdict' = (r.findTags name verdict).carry t := by
  rw [findTags, filterTags, hcandidates]
  exact Filter.run_carry (ofVerdict_carry hverdict) () .empty _

/-- A search by attribute name is carried over if its candidates and its verdicts are. -/
theorem findAttributes_carry (hverdict : ∀ tag, verdict' (t.rewrite tag) = verdict tag)
    (hcandidates : (r.carry t).tagsWith name' = (r.tagsWith name).map t.entry) :
    (r.carry t).findAttributes name' verdict' = (r.findAttributes name verdict).carry t := by
  rw [findAttributes, filterAttributes, hcandidates]
  exact Filter.run_carry (ofVerdict_carry hverdict) () .empty _

end Region

/-! ### Steps -/

namespace Transfer

/-- A transfer goes through the structure of elements: children, contents and elements found in what
is carried over are those found before, carried over. -/
structure Keeps (t : Transfer) : Prop where
  children : ∀ r : Region, (r.carry t).children = r.children.map (Child.carry t)
  content : ∀ offset element, Region.content? (offset + t.distance) (t.rewrite element) =
    (Region.content? offset element).map (Region.carry t)
  expand : ∀ text offset tag, Element.expand (t.rewrite text) offset (t.rewrite tag) =
    t.rewrite (Element.expand text offset tag)

/-- What one plan finds in a region, the other finds in the region carried over. -/
def Searches (t : Transfer) (plan plan' : Plan) : Prop :=
  ∀ r : Region, plan'.search (r.carry t) = (plan.search r).carry t

/-- What one step asks for, the other asks for after the transfer, with the same combinator. -/
structure Answers (t : Transfer) (s s' : Step) : Prop where
  combinator : s'.combinator = s.combinator
  plans : Option.Rel t.Searches (Plan.ofStep? s) (Plan.ofStep? s')

end Transfer

/-- The elements that a plan finds anywhere in a region are carried over. -/
theorem Plan.descendants_carry {plan plan' : Plan} (ht : t.Keeps) (hp : t.Searches plan plan')
    (r : Region) : plan'.descendants (r.carry t) = (plan.descendants r).map t.entry := by
  rw [descendants, descendants, hp, Matches.entries_carry, List.map_map, List.map_map]
  congr 1
  funext e
  simp only [Function.comp_apply, Transfer.entry, Region.carry, ht.expand, Nat.add_sub_add_right]

namespace Step

variable {s s' : Step}

/-- The elements that a plan finds in a region are carried over. -/
theorem hitsIn_carry {plan plan' : Plan} (ht : t.Keeps) (hp : t.Searches plan plan')
    (combinator : Combinator) (r : Region) :
    hitsIn plan' combinator (r.carry t) = (hitsIn plan combinator r).map t.entry := by
  cases combinator with
  | descendant => exact Plan.descendants_carry ht hp r
  | child =>
    have hfound : ∀ child : Child,
        (plan'.search ⟨(child.carry t).offset, (child.carry t).startTag⟩).contains
            (child.carry t).offset =
          (plan.search ⟨child.offset, child.startTag⟩).contains child.offset := by
      intro child
      have hsearch := hp ⟨child.offset, child.startTag⟩
      rw [Region.carry] at hsearch
      rw [Child.carry, hsearch, Matches.contains_carry]
    rw [hitsIn, hitsIn, ht.children, List.filter_map, List.map_map, List.map_map]
    congr 1
    apply List.filter_congr
    intro child _
    exact hfound child

/-- What a step selects is carried over. -/
theorem select_carry (ht : t.Keeps) (hs : t.Answers s s') (regions : List Region) :
    s'.select (regions.map (Region.carry t)) = (s.select regions).carry t := by
  have hplans := hs.plans
  rw [select, select, hs.combinator]
  generalize Plan.ofStep? s = plan at hplans
  generalize Plan.ofStep? s' = plan' at hplans
  cases hplans with
  | none => rfl
  | some hp =>
    dsimp only
    rw [Matches.carry_ofList, List.flatMap_map, List.map_flatMap]
    exact congrArg _ (List.flatMap_congr fun r _ ↦ hitsIn_carry ht hp s.combinator r)

end Step

/-! ### Queries -/

/-- The contents of matches are carried over. -/
theorem Matches.contents_carry (ht : t.Keeps) (m : Matches) :
    (m.carry t).contents = m.contents.map (Region.carry t) := by
  rw [contents, contents, entries_carry, List.filterMap_map, List.map_filterMap]
  congr 1
  funext e
  exact ht.content e.1 e.2

/-- A context carried over. -/
def Context.carry (t : Transfer) : Context → Context
  | document => document
  | selected elements => selected (elements.carry t)

/-- A stage carried over. -/
def Stage.carry (t : Transfer) (stage : Stage) : Stage := ⟨stage.regions, stage.hits.carry t⟩

namespace Alternative

variable {a a' : Alternative}

/-- The stages of an alternative are carried over. -/
theorem stages_carry (ht : t.Keeps) (ha : List.Forall₂ t.Answers a a') (regions : List Region) :
    stages (regions.map (Region.carry t)) a' = (stages regions a).map (Stage.carry t) := by
  induction ha generalizing regions with
  | nil => rfl
  | @cons s s' a a' hs _ ih =>
    rw [stages, stages, Step.select_carry ht hs, Matches.isEmpty_carry,
      Matches.contents_carry ht, ih, List.length_map, List.map_cons]
    split
    · rfl
    · rfl

/-- What an alternative selects is carried over if the regions of the context are. -/
theorem select_carry (ht : t.Keeps) (ha : List.Forall₂ t.Answers a a') {document document' : Bytes}
    {context : Context} (hregions : (context.carry t).regions document' =
      (context.regions document).map (Region.carry t)) :
    a'.select document' (context.carry t) = (a.select document context).carry t := by
  unfold select
  rw [hregions, stages_carry ht ha, List.getLast?_map]
  cases (stages (context.regions document) a).getLast? with
  | some stage => rfl
  | none =>
    cases context with
    | document => rfl
    | selected elements => rfl

end Alternative

/-- What a selector selects is carried over if the regions of the context are. -/
theorem Selector.query_carry (ht : t.Keeps) {s s' : Selector}
    (hs : List.Forall₂ (List.Forall₂ t.Answers) s.alternatives s'.alternatives)
    {document document' : Bytes} {context : Context}
    (hregions : (context.carry t).regions document' =
      (context.regions document).map (Region.carry t)) :
    s'.query document' (context.carry t) = (s.query document context).carry t :=
  Matches.foldl_union_carry (hs.imp fun _ _ ha ↦ Alternative.select_carry ht ha hregions) .empty

/-- What meets a condition is carried over if the regions of the context are. -/
theorem Condition.query_carry (ht : t.Keeps) {c c' : Condition}
    (hc : t.Searches (.condition c) (.condition c')) {document document' : Bytes}
    {context : Context} (hregions : (context.carry t).regions document' =
      (context.regions document).map (Region.carry t)) :
    c'.query document' (context.carry t) = (c.query document context).carry t := by
  rw [query, query, hregions, Matches.carry_ofList, List.flatMap_map, List.map_flatMap]
  exact congrArg _ (List.flatMap_congr fun r _ ↦ Plan.descendants_carry ht hc r)

end MarkupSelect
