import MarkupSelect.Proofs.Attribute.LetterCase
import MarkupSelect.Proofs.Query.Transfer
import MarkupSelect.Proofs.Selector.LetterCase

/-!
# Letter case and queries

Some comparisons ignore letter case. A selector that uses no other finds in a document in lower case
what it finds in the document, in lower case, and its own values may be put in lower case as well.
So documents that agree but for letter case give the same offsets, and markup of the same length.
-/

namespace MarkupSelect

/-! ### Comparisons -/

namespace Operator

/-- Whether a comparison ignores letter case: the tests for presence, for a part, for a beginning
and for an end. -/
def isCaseBlind : Operator → Bool
  | present | contains | notContains | startsWith | notStartsWith | endsWith | notEndsWith => true
  | _ => false

/-- A comparison that ignores letter case compares lowered values as it compares the values. -/
theorem apply_lower {op : Operator} (h : op.isCaseBlind = true) (actual expected : Bytes) :
    op.apply actual.lower expected.lower = op.apply actual expected := by
  cases op with
  | present => rfl
  | contains => exact Bytes.holds_lower actual expected
  | notContains => exact congrArg (! ·) (Bytes.holds_lower actual expected)
  | startsWith =>
    exact (Bytes.beginsWith_lower_left _ _).trans (Bytes.beginsWith_lower_right _ _)
  | notStartsWith =>
    exact congrArg (! ·)
      ((Bytes.beginsWith_lower_left _ _).trans (Bytes.beginsWith_lower_right _ _))
  | endsWith => exact Bytes.endsWith_lower expected actual
  | notEndsWith => exact congrArg (! ·) (Bytes.endsWith_lower expected actual)
  | _ => contradiction

end Operator

/-! ### Conditions -/

/-- An atom with its value in lower case. -/
def Atom.lower (a : Atom) : Atom := ⟨a.field, a.operator, a.value.toLower⟩

/-- An atom that ignores letter case holds of attributes in lower case if it holds of them. -/
theorem Atom.evaluate_lower {a : Atom} (h : a.operator.isCaseBlind = true) (m : AttributeMap) :
    a.lower.evaluate m.lower = a.evaluate m := by
  rw [evaluate, evaluate, lower, AttributeMap.get?_lower]
  cases m.get? (Bytes.ofString a.field) with
  | none => rfl
  | some actual =>
    rw [Option.map_some]
    dsimp only
    rw [Bytes.ofString_toLower, ← Operator.apply_lower h (actual.getD [])]
    cases actual with
    | none => rfl
    | some value => rfl

namespace Condition

/-- A condition with its values in lower case. -/
def lower (c : Condition) : Condition := ⟨c.groups.map (·.map Atom.lower)⟩

/-- A condition ignores letter case if all its comparisons do. -/
def IsCaseBlind (c : Condition) : Prop :=
  ∀ group ∈ c.groups, ∀ a ∈ group, a.operator.isCaseBlind = true

private theorem all_evaluate_lower {group : List Atom}
    (h : ∀ a ∈ group, a.operator.isCaseBlind = true) (m : AttributeMap) :
    (group.map Atom.lower).all (·.evaluate m.lower) = group.all (·.evaluate m) := by
  induction group with
  | nil => rfl
  | cons a group ih =>
    rw [List.forall_mem_cons] at h
    rw [List.map_cons, List.all_cons, List.all_cons, Atom.evaluate_lower h.1, ih h.2]

private theorem any_evaluate_lower {groups : List (List Atom)}
    (h : ∀ group ∈ groups, ∀ a ∈ group, a.operator.isCaseBlind = true) (m : AttributeMap) :
    (groups.map (·.map Atom.lower)).any (·.all (·.evaluate m.lower)) =
      groups.any (·.all (·.evaluate m)) := by
  induction groups with
  | nil => rfl
  | cons group groups ih =>
    rw [List.forall_mem_cons] at h
    rw [List.map_cons, List.any_cons, List.any_cons, all_evaluate_lower h.1, ih h.2]

/-- A condition that ignores letter case holds of attributes in lower case if it holds of them. -/
theorem evaluate_lower {c : Condition} (h : c.IsCaseBlind) (m : AttributeMap) :
    c.lower.evaluate m.lower = c.evaluate m := by
  rw [evaluate, evaluate, isEmpty, isEmpty, lower, List.isEmpty_map, any_evaluate_lower h]

/-- The values do not matter to the anchors. -/
theorem anchors_lower (c : Condition) : c.lower.anchors = c.anchors := by
  rw [anchors, anchors, lower, List.filterMap_map]
  congr 2
  funext group
  rw [Function.comp_apply, List.head?_map, Option.map_map]
  rfl

/-- All of some atoms in lower case is all of the atoms, in lower case. -/
theorem all_lower (atoms : List Atom) : all (atoms.map Atom.lower) = (all atoms).lower := by
  cases atoms with
  | nil => rfl
  | cons a atoms => rfl

end Condition

/-! ### Searches -/

/-- The transfer that puts everything in lower case and moves nothing. -/
def Transfer.lowered : Transfer := ⟨0, Bytes.lower⟩

/-- Lower case goes through the structure of elements. -/
theorem Transfer.keeps_lowered : lowered.Keeps where
  children := Region.children_lower
  content := Region.content?_lower
  expand := Element.expand_lower

namespace Region

private theorem tagAt?_lower (name : Bytes) (p : Place) :
    tagAt? name p.lower = (tagAt? name p).map Bytes.lower := by
  have hends : ∀ b, (Ascii.isSpace (Ascii.toLower b) || Ascii.toLower b == Ascii.greater) =
      (Ascii.isSpace b || b == Ascii.greater) := fun b ↦ by
    rw [Ascii.isSpace_toLower, Ascii.toLower_beq rfl]
  rw [tagAt?, tagAt?, Place.next_lower, Place.insideStartTag_lower, Place.lower,
    ← Bytes.lower_drop, Bytes.head?_any_lower hends, StartTag.ofMarkup?_lower]
  split
  · rw [Option.map_map, Option.map_map]
    congr 1
    funext tag
    exact tag.text_lower
  · rfl

private theorem tagsNamed_lower (r : Region) (name : Bytes) :
    r.lower.tagsNamed name = (r.tagsNamed name).map Transfer.lowered.entry := by
  rw [tagsNamed, tagsNamed, lower, Place.all_lower]
  split
  · rfl
  · rw [List.map_filterMap, List.filterMap_map]
    congr 1
    funext p
    rw [Function.comp_apply, tagAt?_lower, Option.map_map, Option.map_map, Place.offset_lower]
    rfl

private theorem tagAround?_lower (p : Place) :
    tagAround? p.lower = (tagAround? p).map fun e ↦ (e.1, e.2.lower) := by
  rw [tagAround?, tagAround?, Place.insideStartTag_lower, Place.enclosing?_lower, Place.lower,
    Bytes.head?_any_lower Ascii.isSpace_toLower]
  split
  · cases p.enclosing? with
    | none => rfl
    | some e =>
      rw [Option.map_some, Option.filter_some, Option.filter_some, StartTag.isKnownTag_lower]
      split
      · rfl
      · rfl
  · rfl

private theorem tagsWith_lower (r : Region) (name : Bytes) :
    r.lower.tagsWith name = (r.tagsWith name).map Transfer.lowered.entry := by
  rw [tagsWith, tagsWith, lower, Place.all_lower]
  split
  · rfl
  · rw [List.map_filterMap, List.filterMap_map]
    congr 1
    funext p
    rw [Function.comp_apply, tagAround?_lower, Option.map_map, Option.map_map]
    rfl

end Region

/-! ### Steps -/

namespace Step

/-- A step ignores letter case if all its comparisons do. -/
def IsCaseBlind (s : Step) : Prop := ∀ p ∈ s.predicates, p.operator.isCaseBlind = true

/-- Whether a step ignores letter case is computed from its operators. -/
instance (s : Step) : Decidable s.IsCaseBlind :=
  inferInstanceAs (Decidable (∀ p ∈ s.predicates, p.operator.isCaseBlind = true))

/-- A step ignores letter case if it does so in lower case. -/
theorem isCaseBlind_lower {s : Step} : s.lower.IsCaseBlind ↔ s.IsCaseBlind := List.forall_mem_map

/-- The condition of a step in lower case is that of the step, in lower case. -/
theorem condition_lower (s : Step) : s.lower.condition = s.condition.lower := by
  rw [condition, condition, ← Condition.all_lower, lower, List.map_map, List.map_map]
  rfl

/-- The condition of a step that ignores letter case does so. -/
theorem IsCaseBlind.condition {s : Step} (h : s.IsCaseBlind) : s.condition.IsCaseBlind := by
  intro group hgroup a ha
  rw [Step.condition, Condition.all] at hgroup
  split at hgroup
  · contradiction
  · obtain rfl := List.mem_singleton.mp hgroup
    obtain ⟨p, hp, rfl⟩ := List.mem_map.mp ha
    exact h p hp

end Step

namespace Plan

private theorem verdict_lower {c : Condition} (h : c.IsCaseBlind) (tag : Bytes) :
    Verdict.ofBool (c.lower.evaluate (AttributeMap.ofMarkupValid tag.lower)) =
      .ofBool (c.evaluate (AttributeMap.ofMarkupValid tag)) := by
  rw [AttributeMap.ofMarkupValid_lower, Condition.evaluate_lower h]

/-- A search by a tag name goes through lower case. -/
theorem searches_tag (name : String) : Transfer.lowered.Searches (.tag name) (.tag name) :=
  fun r ↦ Region.findTags_carry (fun _ ↦ rfl) (Region.tagsNamed_lower r _)

/-- A search by a tag name under a condition that ignores letter case goes through lower case. -/
theorem searches_tagUnder (name : String) {c : Condition} (h : c.IsCaseBlind) :
    Transfer.lowered.Searches (.tagUnder name c) (.tagUnder name c.lower) :=
  fun r ↦ Region.findTags_carry (verdict_lower h) (Region.tagsNamed_lower r _)

/-- A search by a condition that ignores letter case goes through lower case. -/
theorem searches_condition {c : Condition} (h : c.IsCaseBlind) :
    Transfer.lowered.Searches (.condition c) (.condition c.lower) := by
  intro r
  have hfield : ∀ field,
      ((r.carry .lowered).findAttributes (Bytes.ofString field) fun tag ↦
        .ofBool (c.lower.evaluate (AttributeMap.ofMarkupValid tag))) =
      (r.findAttributes (Bytes.ofString field) fun tag ↦
        .ofBool (c.evaluate (AttributeMap.ofMarkupValid tag))).carry .lowered := fun _ ↦
    Region.findAttributes_carry (verdict_lower h) (Region.tagsWith_lower r _)
  rw [search, search, Region.findCondition, Region.findCondition, Condition.anchors_lower]
  exact Matches.foldl_union_carry (List.forall₂_same.mpr fun field _ ↦ hfield field) .empty

end Plan

private theorem Predicate.not_shorthand {p : Predicate} (h : p.operator.isCaseBlind = true) :
    ¬ p.isIdentifier = true ∧ ¬ p.asksAllClasses = true := by
  constructor
  · intro hidentifier
    rw [isIdentifier, Bool.and_eq_true, beq_iff_eq, beq_iff_eq] at hidentifier
    rw [hidentifier.2] at h
    contradiction
  · intro hclasses
    rw [asksAllClasses, Bool.and_eq_true] at hclasses
    obtain ⟨-, hclasses⟩ := hclasses
    split at hclasses
    · next hoperator =>
      rw [hoperator] at h
      contradiction
    · next hoperator =>
      rw [hoperator] at h
      contradiction
    · contradiction

private theorem Plan.ofStep?_untagged {predicates : List Predicate} (hne : predicates ≠ [])
    (h : ∀ p ∈ predicates, p.operator.isCaseBlind = true) (combinator : Combinator) :
    ofStep? ⟨none, combinator, predicates⟩ =
      some (.condition (Step.condition ⟨none, combinator, predicates⟩)) := by
  match predicates with
  | [] => contradiction
  | [p] =>
    obtain ⟨hidentifier, hclasses⟩ := Predicate.not_shorthand (h p List.mem_cons_self)
    dsimp only [ofStep?]
    rw [if_neg hidentifier, if_neg hclasses]
  | p :: q :: predicates => rfl

/-- A step that ignores letter case asks for the same in lower case. -/
theorem Step.answers_lowered {s : Step} (h : s.IsCaseBlind) :
    Transfer.lowered.Answers s s.lower where
  combinator := rfl
  plans := by
    have hcondition := Plan.searches_condition h.condition
    have hunder := fun name ↦ Plan.searches_tagUnder name h.condition
    rw [← s.condition_lower] at hcondition hunder
    obtain ⟨tag, combinator, predicates⟩ := s
    cases tag with
    | some name =>
      cases predicates with
      | nil => exact .some (Plan.searches_tag name)
      | cons p predicates => exact .some (hunder name)
    | none =>
      by_cases hne : predicates = []
      · subst hne
        exact .none
      · have hlower : ∀ p ∈ predicates.map Predicate.lower, p.operator.isCaseBlind = true :=
          List.forall_mem_map.mpr h
        rw [lower, Plan.ofStep?_untagged hne h, Plan.ofStep?_untagged (by simpa using hne) hlower]
        exact .some hcondition

/-! ### Queries -/

namespace Selector

/-- A selector ignores letter case if all its comparisons do. -/
def IsCaseBlind (s : Selector) : Prop := ∀ a ∈ s.alternatives, ∀ step ∈ a, step.IsCaseBlind

/-- Whether a selector ignores letter case is computed from its steps. -/
instance (s : Selector) : Decidable s.IsCaseBlind :=
  inferInstanceAs (Decidable (∀ a ∈ s.alternatives, ∀ step ∈ a, step.IsCaseBlind))

/-- A selector ignores letter case if it does so in lower case. -/
theorem isCaseBlind_lower {s : Selector} : s.lower.IsCaseBlind ↔ s.IsCaseBlind := by
  rw [IsCaseBlind, lower, List.forall_mem_map]
  simp only [List.forall_mem_map, Step.isCaseBlind_lower]
  rfl

/-- In a document in lower case a selector in lower case that ignores letter case finds what the
selector finds in the document, in lower case. -/
theorem query_lower {s : Selector} (h : s.IsCaseBlind) (document : Bytes) :
    s.lower.query document.lower .document = (s.query document .document).carry .lowered := by
  have halternatives : List.Forall₂ (List.Forall₂ Transfer.lowered.Answers) s.alternatives
      s.lower.alternatives := by
    rw [lower, List.forall₂_map_right_iff, List.forall₂_same]
    intro a ha
    rw [List.forall₂_map_right_iff, List.forall₂_same]
    exact fun step hstep ↦ Step.answers_lowered (h a ha step hstep)
  have hregions : (Context.document.carry .lowered).regions document.lower =
      (Context.document.regions document).map (Region.carry .lowered) := rfl
  exact query_carry Transfer.keeps_lowered halternatives hregions

/-- Selectors that ignore letter case and whose texts are the same but for it find, in documents
that are the same but for it, markup of the same lengths at the same offsets. -/
theorem query_letterCase {text text' : String} {s t : Selector} {document document' : Bytes}
    (hs : compile text = .ok s) (ht : compile text' = .ok t) (htext : text.toLower = text'.toLower)
    (hblind : s.IsCaseBlind) (hdocument : document.agree document' = true) :
    (s.query document .document).entries.map (fun e ↦ (e.1, e.2.length)) =
      (t.query document' .document).entries.map fun e ↦ (e.1, e.2.length) := by
  have hlower : s.lower = t.lower := by
    have hcompile : lowerResult lower (compile text) = lowerResult lower (compile text') := by
      rw [← compile_toLower, ← compile_toLower, htext]
    rw [hs, ht] at hcompile
    exact Except.ok.inj hcompile
  have hblind' : t.IsCaseBlind := by
    rw [← isCaseBlind_lower, ← hlower]
    exact isCaseBlind_lower.mpr hblind
  -- Both are the query in lower case, which keeps offsets and lengths.
  have hquery : (s.query document .document).carry .lowered =
      (t.query document' .document).carry .lowered := by
    rw [← query_lower hblind, ← query_lower hblind', hlower, beq_iff_eq.mp hdocument]
  have hentries := congrArg (·.entries.map fun e ↦ (e.1, e.2.length)) hquery
  have hshape : (fun e : Nat × Bytes ↦ (e.1, e.2.length)) ∘ Transfer.lowered.entry =
      fun e ↦ (e.1, e.2.length) := by
    funext e
    exact congrArg (e.1, ·) (Bytes.length_lower e.2)
  simpa only [Matches.entries_carry, List.map_map, hshape] using hentries

/-- A tag name, an attribute name and a value in different letter case, in documents whose tags,
attributes and end tags are in different letter case as well; one link is found. -/
theorem query_letterCase_mixed :
    let s : Selector := ⟨"P > A[Href*='AB']", [[⟨some "p", .descendant, []⟩,
      ⟨some "a", .child, [⟨"href", .contains, "AB"⟩]⟩]]⟩
    let t : Selector := ⟨"p > a[href*='Ab']", [[⟨some "p", .descendant, []⟩,
      ⟨some "a", .child, [⟨"href", .contains, "Ab"⟩]⟩]]⟩
    let document := Bytes.ofString "<p><A href='/aB'>one</a></P>"
    let document' := Bytes.ofString "<P><a HREF='/ab'>One</A></p>"
    let shape := fun e : Nat × Bytes ↦ (e.1, e.2.length)
    (compile "P > A[Href*='AB']" = .ok s ∧ compile "p > a[href*='Ab']" = .ok t ∧
      "P > A[Href*='AB']".toLower = "p > a[href*='Ab']".toLower ∧ s.IsCaseBlind ∧
      document.agree document' = true) ∧
      (s.query document .document).entries.map shape = [(3, 21)] ∧
        (s.query document .document).entries.map shape =
          (t.query document' .document).entries.map shape := by
  intro s t document document' shape
  have hs : compile "P > A[Href*='AB']" = .ok s := by rfl
  have ht : compile "p > a[href*='Ab']" = .ok t := by rfl
  have htext : "P > A[Href*='AB']".toLower = "p > a[href*='Ab']".toLower := by
    rw [← String.toList_inj, Text.toList_toLower, Text.toList_toLower]
    simp
  have hblind : s.IsCaseBlind := by decide
  have hdocument : document.agree document' = true := by decide +kernel
  have hfound : (s.query document .document).entries.map shape = [(3, 21)] := by decide +kernel
  exact ⟨⟨hs, ht, htext, hblind, hdocument⟩, hfound,
    query_letterCase hs ht htext hblind hdocument⟩

end Selector

end MarkupSelect
