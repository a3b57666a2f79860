import MarkupSelect.Proofs.Query.Transfer

/-!
# Queries inside an element

Where an element lies does not matter to what is found inside it: if it lies further on, everything
is found as much further on, with the same markup, whatever document surrounds it.
-/

namespace MarkupSelect

/-- The transfer that moves everything on and rewrites nothing. -/
def Transfer.moved (distance : Nat) : Transfer := ⟨distance, id⟩

variable {distance : Nat}

/-! ### Elements -/

private theorem Child.inText_moved (distance skip position : Nat) (text : Bytes) :
    inText skip (position + distance) text =
      (inText skip position text).map (carry (.moved distance)) := by
  induction text generalizing skip position with
  | nil => rfl
  | cons b text ih =>
    have hnext : position + distance + 1 = position + 1 + distance := Nat.add_right_comm _ _ _
    cases skip with
    | succ skip => rw [inText, inText, hnext, ih]
    | zero =>
      rw [inText, inText, hnext]
      split
      · cases StartTag.ofMarkup? (b :: text) with
        | none => rfl
        | some tag =>
          dsimp only
          rw [ih]
          rfl
      · exact ih 0 (position + 1)

/-- Moving goes through the structure of elements. -/
theorem Transfer.keeps_moved (distance : Nat) : (moved distance).Keeps where
  children r := Child.inText_moved distance 0 r.base r.text
  content offset element := by
    rw [Region.content?, Region.content?, Option.map_map]
    congr 1
    funext parts
    exact congrArg (Region.mk · parts.content) (Nat.add_right_comm _ _ _)
  expand _ _ _ := rfl

/-! ### Searches -/

namespace Region

private theorem absolute_moved (r : Region) (relative : Nat) :
    (r.carry (.moved distance)).absolute relative = r.absolute relative + distance :=
  Nat.add_right_comm _ _ _

private theorem tagsNamed_moved (r : Region) (name : Bytes) :
    (r.carry (.moved distance)).tagsNamed name =
      (r.tagsNamed name).map (Transfer.moved distance).entry := by
  rw [tagsNamed, tagsNamed]
  split
  · rfl
  · rw [List.map_filterMap]
    congr 1
    funext p
    rw [absolute_moved, Option.map_map]
    rfl

private theorem tagsWith_moved (r : Region) (name : Bytes) :
    (r.carry (.moved distance)).tagsWith name =
      (r.tagsWith name).map (Transfer.moved distance).entry := by
  rw [tagsWith, tagsWith]
  split
  · rfl
  · rw [List.map_filterMap]
    congr 1
    funext p
    rw [Option.map_map]
    congr 1
    funext e
    rw [absolute_moved]
    rfl

end Region

/-- In a region that lies further on a plan finds the same further on. -/
theorem Plan.searches_moved (distance : Nat) (plan : Plan) :
    (Transfer.moved distance).Searches plan plan := by
  intro r
  have hnamed : ∀ name verdict, (r.carry (.moved distance)).findTags name verdict =
      (r.findTags name verdict).carry (.moved distance) := fun name _ ↦
    Region.findTags_carry (fun _ ↦ rfl) (Region.tagsNamed_moved r name)
  have hwith : ∀ name verdict, (r.carry (.moved distance)).findAttributes name verdict =
      (r.findAttributes name verdict).carry (.moved distance) := fun name _ ↦
    Region.findAttributes_carry (fun _ ↦ rfl) (Region.tagsWith_moved r name)
  cases plan with
  | tag name => exact hnamed _ _
  | tagUnder name c => exact hnamed _ _
  | id value => exact hwith _ _
  | classes words => exact hwith _ _
  | condition c =>
    exact Matches.foldl_union_carry (List.forall₂_same.mpr fun field _ ↦ hwith _ _) .empty

/-- In a region that lies further on a step asks for the same. -/
theorem Step.answers_moved (distance : Nat) (s : Step) : (Transfer.moved distance).Answers s s where
  combinator := rfl
  plans := by
    cases Plan.ofStep? s with
    | none => exact .none
    | some plan => exact .some (plan.searches_moved distance)

/-! ### Queries -/

private theorem Context.regions_moved (elements : Matches) (document document' : Bytes) :
    ((selected elements).carry (.moved distance)).regions document' =
      ((selected elements).regions document).map (Region.carry (.moved distance)) :=
  Matches.contents_carry (Transfer.keeps_moved distance) elements

/-- In elements that lie further on a selector selects the same further on. -/
theorem Selector.query_moved (s : Selector) (distance : Nat) (elements : Matches)
    (document document' : Bytes) :
    s.query document' (.selected (elements.carry (.moved distance))) =
      (s.query document (.selected elements)).carry (.moved distance) := by
  apply query_carry (Transfer.keeps_moved distance) _ (Context.regions_moved elements _ _)
  exact List.forall₂_same.mpr fun a _ ↦
    List.forall₂_same.mpr fun step _ ↦ step.answers_moved distance

/-- In elements that lie further on the same meets a condition further on. -/
theorem Condition.query_moved (c : Condition) (distance : Nat) (elements : Matches)
    (document document' : Bytes) :
    c.query document' (.selected (elements.carry (.moved distance))) =
      (c.query document (.selected elements)).carry (.moved distance) :=
  query_carry (Transfer.keeps_moved distance) (Plan.searches_moved distance _)
    (Context.regions_moved elements _ _)

private theorem entries_inside {query : Bytes → Context → Matches}
    (hquery : ∀ distance elements document document',
      query document' (.selected (elements.carry (.moved distance))) =
        (query document (.selected elements)).carry (.moved distance))
    (markup document₁ document₂ : Bytes) (offset₁ offset₂ : Nat) :
    (query document₁ (.selected (.singleton offset₁ markup))).entries.map
        (fun e ↦ ((e.1 : Int) + (offset₂ - offset₁), e.2)) =
      (query document₂ (.selected (.singleton offset₂ markup))).entries.map
        fun e ↦ ((e.1 : Int), e.2) := by
  -- Both are what is found in the element where it begins the document, moved on.
  have hbegin : ∀ offset, Matches.singleton offset markup =
      (Matches.singleton 0 markup).carry (.moved offset) := by
    intro offset
    rw [Matches.carry_singleton, Nat.zero_add]
    rfl
  rw [hbegin offset₁, hbegin offset₂, hquery offset₁ _ [], hquery offset₂ _ [],
    Matches.entries_carry, Matches.entries_carry, List.map_map, List.map_map]
  congr 1
  funext e
  simp only [Function.comp_apply, Transfer.entry, Transfer.moved, Prod.mk.injEq, and_true]
  omega

/-- What is found in an element that lies at one offset, with the difference to another offset
added, is what is found in the same element where it lies at the other, in whatever documents; for
every selector and for every condition. -/
theorem Selector.query_inside (s : Selector) (c : Condition) (markup : Bytes)
    (document₁ document₂ : Bytes) (offset₁ offset₂ : Nat) :
    let context₁ := Context.selected (.singleton offset₁ markup)
    let context₂ := Context.selected (.singleton offset₂ markup)
    let moved := fun e : Nat × Bytes ↦ ((e.1 : Int) + (offset₂ - offset₁), e.2)
    let placed := fun e : Nat × Bytes ↦ ((e.1 : Int), e.2)
    (s.query document₁ context₁).entries.map moved =
        (s.query document₂ context₂).entries.map placed ∧
      (c.query document₁ context₁).entries.map moved =
        (c.query document₂ context₂).entries.map placed :=
  ⟨entries_inside s.query_moved markup document₁ document₂ offset₁ offset₂,
    entries_inside c.query_moved markup document₁ document₂ offset₁ offset₂⟩

end MarkupSelect
