import MarkupSelect.Proofs.Locate.Found
import MarkupSelect.Proofs.Selector.Compiled
import MarkupSelect.Proofs.Selector.Heading
import MarkupSelect.Proofs.Selector.Joined
import MarkupSelect.Query.Basic

/-!
# What a plan finds is what its step asks for

A step asks something of the start tag of an element: its name and its attributes. Every plan finds
start tags that fit its step, those that bypass the condition of the step included; and there is a
plan for every step of a selector that compiles.
-/

namespace MarkupSelect

/-- A markup fits a step: it has the tag name that the step asks for, and all predicates hold of its
attributes. -/
structure Step.Fits (s : Step) (markup : Bytes) : Prop where
  tag : ∀ name ∈ s.tag, StartTag.nameOf? markup = some (Bytes.ofString name)
  predicates : ∀ p ∈ s.predicates, p.atom.evaluate (.ofMarkupValid markup) = true

/-- What a step asks of a markup is asked of the start tag that it begins with. -/
theorem Step.Fits.congr {s : Step} {markup other : Bytes}
    (h : StartTag.ofMarkup? markup = StartTag.ofMarkup? other) (hf : s.Fits markup) :
    s.Fits other := by
  have hmap : AttributeMap.ofMarkupValid markup = .ofMarkupValid other := by
    rw [AttributeMap.ofMarkupValid, AttributeMap.ofMarkup, h]
    rfl
  constructor
  · intro name hname
    rw [← hf.tag name hname, StartTag.nameOf?, StartTag.nameOf?, h]
  · intro p hp
    rw [← hmap]
    exact hf.predicates p hp

namespace Plan

/-- A start tag is among those that a plan tests. -/
def Offers (r : Region) (e : Nat × Bytes) : Plan → Prop
  | .tag name => e ∈ r.tagsNamed (Bytes.ofString name)
  | .tagUnder name _ => e ∈ r.tagsNamed (Bytes.ofString name)
  | .id _ => e ∈ r.tagsWith (Bytes.ofString "id")
  | .classes _ => e ∈ r.tagsWith (Bytes.ofString "class")
  | .condition c => ∃ field ∈ c.anchors, e ∈ r.tagsWith (Bytes.ofString field)

/-- A start tag passes the test of a plan. -/
def Accepts (tag : Bytes) : Plan → Prop
  | .tag _ => True
  | .tagUnder _ c => c.evaluate (.ofMarkupValid tag) = true
  | .id value =>
    (AttributeMap.ofMarkupValid tag).value? (Bytes.ofString "id") = some (Bytes.ofString value)
  | .classes words =>
    ∃ value, (AttributeMap.ofMarkupValid tag).value? (Bytes.ofString "class") = some value ∧
      words ≠ [] ∧ ∀ word ∈ words, word ∈ Bytes.words value
  | .condition c => c.evaluate (.ofMarkupValid tag) = true

variable {plan : Plan} {r : Region} {e : Nat × Bytes} {s : Step}

/-- A plan tests start tags of the region. -/
theorem Offers.starts (h : plan.Offers r e) : r.Starts e := by
  cases plan with
  | tag name => exact (Region.mem_tagsNamed h).1
  | tagUnder name c => exact (Region.mem_tagsNamed h).1
  | id value => exact Region.mem_tagsWith h
  | classes words => exact Region.mem_tagsWith h
  | condition c =>
    obtain ⟨field, -, h⟩ := h
    exact Region.mem_tagsWith h

/-- A plan finds start tags that it tests and that pass. -/
theorem mem_search (h : e ∈ (plan.search r).entries) : plan.Offers r e ∧ plan.Accepts e.2 := by
  cases plan with
  | tag name =>
    exact ⟨((Region.mem_findTags_iff (by simp)).mp h).1, trivial⟩
  | tagUnder name c =>
    have := (Region.mem_findTags_iff fun _ ↦ Verdict.ofBool_ne_keepAndStop _).mp h
    exact ⟨this.1, Verdict.ofBool_ne_skip_iff.mp this.2⟩
  | id value => exact Region.mem_findId h
  | classes words => exact Region.mem_findClass_iff.mp h
  | condition c => exact Region.mem_findCondition_iff.mp h

/-- Every plan but the one for an identifier finds all that it tests and that pass. -/
theorem mem_search_of_accepts (hid : ∀ value, plan ≠ .id value) (ho : plan.Offers r e)
    (ha : plan.Accepts e.2) : e ∈ (plan.search r).entries := by
  cases plan with
  | tag name => exact (Region.mem_findTags_iff (by simp)).mpr ⟨ho, by simp⟩
  | tagUnder name c =>
    apply (Region.mem_findTags_iff fun _ ↦ Verdict.ofBool_ne_keepAndStop _).mpr
    exact ⟨ho, Verdict.ofBool_ne_skip_iff.mpr ha⟩
  | id value => exact absurd rfl (hid value)
  | classes words => exact Region.mem_findClass_iff.mpr ⟨ho, ha⟩
  | condition c => exact Region.mem_findCondition_iff.mpr ⟨ho, ha⟩

/-- If no two start tags have one identifier, a plan finds all that it tests and that pass. -/
theorem mem_search_iff
    (hunique : ∀ a b, r.Starts a → r.Starts b → ∀ id,
      (AttributeMap.ofMarkupValid a.2).value? (Bytes.ofString "id") = some id →
      (AttributeMap.ofMarkupValid b.2).value? (Bytes.ofString "id") = some id → a = b) :
    e ∈ (plan.search r).entries ↔ plan.Offers r e ∧ plan.Accepts e.2 := by
  constructor
  · exact mem_search
  rintro ⟨hoffer, haccept⟩
  cases plan with
  | id value =>
    apply (Region.mem_findId_iff ?_).mpr ⟨hoffer, haccept⟩
    intro a ha b hb hida hidb
    exact hunique a b (Region.mem_tagsWith ha) (Region.mem_tagsWith hb) _ hida hidb
  | _ => exact mem_search_of_accepts (by simp) hoffer haccept

/-! ### The tests and the predicates -/

private theorem evaluate_condition {s : Step} {attributes : AttributeMap} :
    s.condition.evaluate attributes = true ↔
      ∀ p ∈ s.predicates, p.atom.evaluate attributes = true := by
  rw [Step.condition, Condition.evaluate_all, List.all_eq_true]
  simp

private theorem evaluate_of_value? {p : Predicate} {attributes : AttributeMap} {value : Bytes}
    (h : attributes.value? (Bytes.ofString p.name) = some value) :
    p.atom.evaluate attributes = p.operator.apply value (Bytes.ofString p.value) := by
  have hget : attributes.get? (Bytes.ofString p.name) = some (some value) :=
    Option.join_eq_some_iff.mp h
  rw [Atom.evaluate, Predicate.atom]
  dsimp only
  rw [hget]
  rfl

/-- A predicate for an identifier asks for a value of `id`. -/
theorem name_operator_of_isIdentifier {p : Predicate} (h : p.isIdentifier = true) :
    p.name = "id" ∧ p.operator = .equals := by
  rw [Predicate.isIdentifier, Bool.and_eq_true, beq_iff_eq, beq_iff_eq] at h
  exact h

/-- A predicate for classes asks for words of `class`. -/
theorem name_of_asksAllClasses {p : Predicate} (h : p.asksAllClasses = true) :
    p.name = "class" := by
  rw [Predicate.asksAllClasses, Bool.and_eq_true, beq_iff_eq] at h
  exact h.1

private theorem apply_of_asksAllClasses {p : Predicate} (h : p.asksAllClasses = true)
    (value : Bytes) :
    p.operator.apply value (Bytes.ofString p.value) = true ↔
      Bytes.words (Bytes.ofString p.value) ≠ [] ∧
        ∀ word ∈ Bytes.words (Bytes.ofString p.value), word ∈ Bytes.words value := by
  unfold Predicate.asksAllClasses at h
  rw [Bool.and_eq_true] at h
  have hop := h.2
  cases hcase : p.operator with
  | allWords => simp [Operator.apply]
  | anyWord =>
    -- Of a single word `any` and `all` are the same.
    rw [hcase] at hop
    obtain ⟨word, hword⟩ := List.length_eq_one_iff.mp (beq_iff_eq.mp hop)
    rw [hword]
    simp [Operator.apply, hword]
  | _ => simp [hcase] at hop

/-- The test for classes is that of the predicate that asks for them. -/
theorem accepts_classes_iff {p : Predicate} (h : p.asksAllClasses = true) {markup : Bytes} :
    Accepts markup (.classes (Bytes.words (Bytes.ofString p.value))) ↔
      p.atom.evaluate (.ofMarkupValid markup) = true := by
  have hname := name_of_asksAllClasses h
  constructor
  · rintro ⟨value, hvalue, hwords⟩
    rw [← hname] at hvalue
    rw [evaluate_of_value? hvalue]
    exact (apply_of_asksAllClasses h value).mpr hwords
  · intro heval
    unfold Atom.evaluate Predicate.atom at heval
    dsimp only at heval
    rw [hname] at heval
    unfold Accepts AttributeMap.value?
    cases hget : (AttributeMap.ofMarkupValid markup).get? (Bytes.ofString "class") with
    | none => simp [hget] at heval
    | some value =>
      rw [hget] at heval
      dsimp only at heval
      obtain ⟨hne, hwords⟩ := (apply_of_asksAllClasses h _).mp heval
      cases value with
      | none =>
        -- The empty value has no words.
        obtain ⟨word, hword⟩ := List.exists_mem_of_ne_nil _ hne
        simpa using hwords word hword
      | some value => exact ⟨value, rfl, hne, hwords⟩

/-- The ways in which a plan comes from a step. -/
inductive Of (s : Step) : Plan → Prop
  | tag {name : String} (htag : s.tag = some name) (hp : s.predicates = []) : Of s (.tag name)
  | tagUnder {name : String} (htag : s.tag = some name) : Of s (.tagUnder name s.condition)
  | id {p : Predicate} (htag : s.tag = none) (hp : s.predicates = [p])
      (hid : p.isIdentifier = true) : Of s (.id p.value)
  | classes {p : Predicate} (htag : s.tag = none) (hp : s.predicates = [p])
      (hall : p.asksAllClasses = true) : Of s (.classes (Bytes.words (Bytes.ofString p.value)))
  | condition (htag : s.tag = none) (hp : s.predicates ≠ []) : Of s (.condition s.condition)

/-- A plan comes from its step in one of these ways. -/
theorem of_ofStep? (h : ofStep? s = some plan) : Of s plan := by
  unfold ofStep? at h
  split at h
  · next htag hp =>
    rw [← Option.some.inj h]
    exact .tag htag hp
  · next htag _ =>
    rw [← Option.some.inj h]
    exact .tagUnder htag
  · contradiction
  · next p htag hp =>
    split at h
    · next hid =>
      rw [← Option.some.inj h]
      exact .id htag hp hid
    split at h
    · next hall =>
      rw [← Option.some.inj h]
      exact .classes htag hp hall
    · rw [← Option.some.inj h]
      exact .condition htag (by simp [hp])
  · next htag hne _ =>
    rw [← Option.some.inj h]
    exact .condition htag hne

/-- A step that asks for something has a plan. -/
theorem exists_ofStep? (hs : s.IsRead) : ∃ plan, ofStep? s = some plan := by
  unfold ofStep?
  split
  · exact ⟨_, rfl⟩
  · exact ⟨_, rfl⟩
  · next htag hpreds =>
    rcases hs.asks with h | h
    · rw [htag] at h
      contradiction
    · exact absurd hpreds h
  · split
    · exact ⟨_, rfl⟩
    split
    · exact ⟨_, rfl⟩
    · exact ⟨_, rfl⟩
  · exact ⟨_, rfl⟩

/-- A start tag that a plan tests and that passes fits the step. -/
theorem fits_of_accepts (hs : s.IsRead) (hp : ofStep? s = some plan) (ho : plan.Offers r e)
    (ha : plan.Accepts e.2) : s.Fits e.2 := by
  have hnamed : ∀ name, s.tag = some name → e ∈ r.tagsNamed (Bytes.ofString name) →
      ∀ tag ∈ s.tag, StartTag.nameOf? e.2 = some (Bytes.ofString tag) := by
    intro name htag hmem tag ht
    have hlowered := hs.tag_lowered name htag
    rw [htag] at ht
    rw [(Region.mem_tagsNamed hmem).2, ← Option.some.inj ht, hlowered]
  have hunnamed : s.tag = none → ∀ tag ∈ s.tag,
      StartTag.nameOf? e.2 = some (Bytes.ofString tag) := by
    intro htag tag ht
    rw [htag] at ht
    contradiction
  cases of_ofStep? hp with
  | tag htag hpreds => exact ⟨hnamed _ htag ho, by simp [hpreds]⟩
  | tagUnder htag => exact ⟨hnamed _ htag ho, evaluate_condition.mp ha⟩
  | condition htag _ => exact ⟨hunnamed htag, evaluate_condition.mp ha⟩
  | @id p htag hpreds hid =>
    refine ⟨hunnamed htag, ?_⟩
    intro q hq
    rw [hpreds, List.mem_singleton] at hq
    subst hq
    obtain ⟨hname, hoperator⟩ := name_operator_of_isIdentifier hid
    unfold Accepts at ha
    rw [← hname] at ha
    rw [evaluate_of_value? ha, hoperator]
    exact beq_self_eq_true _
  | @classes p htag hpreds hall =>
    refine ⟨hunnamed htag, ?_⟩
    intro q hq
    rw [hpreds, List.mem_singleton] at hq
    subst hq
    exact (accepts_classes_iff hall).mp ha

/-- If an identifier never stands without a value, a start tag that fits the step passes. -/
theorem accepts_of_fits {markup : Bytes} (hp : ofStep? s = some plan)
    (hid : (AttributeMap.ofMarkupValid markup).get? (Bytes.ofString "id") ≠ some none)
    (hf : s.Fits markup) : plan.Accepts markup := by
  cases of_ofStep? hp with
  | tag _ _ => trivial
  | tagUnder _ => exact evaluate_condition.mpr hf.predicates
  | condition _ _ => exact evaluate_condition.mpr hf.predicates
  | @id p _ hpreds hident =>
    have heval := hf.predicates p (by simp [hpreds])
    obtain ⟨hname, hoperator⟩ := name_operator_of_isIdentifier hident
    unfold Atom.evaluate Predicate.atom at heval
    dsimp only at heval
    rw [hname, hoperator] at heval
    unfold Accepts AttributeMap.value?
    cases hget : (AttributeMap.ofMarkupValid markup).get? (Bytes.ofString "id") with
    | none => simp [hget] at heval
    | some value =>
      cases value with
      | none => exact absurd hget hid
      | some value =>
        rw [hget] at heval
        exact congrArg some (beq_iff_eq.mp heval)
  | @classes p _ hpreds hall =>
    exact (accepts_classes_iff hall).mpr (hf.predicates p (by simp [hpreds]))

end Plan

/-!
### Compiled selectors can be searched

There is something to search for in every selector that compiles, and a plan for each of its steps:
no step is empty, and all that the steps ask for is asked by proper names.
-/

namespace Selector

/-- A selector whose steps can be searched: there are alternatives, each of steps that ask for
something by proper names and have a plan, and the first step of all is a descendant. -/
structure IsSearchable (s : Selector) : Prop where
  ne_nil : s.alternatives ≠ []
  alternatives : ∀ a ∈ s.alternatives, a.IsSound
  first : ∀ step steps rest, s.alternatives = (step :: steps) :: rest →
    step.combinator = .descendant
  plans : ∀ a ∈ s.alternatives, ∀ step ∈ a, ∃ plan, Plan.ofStep? step = some plan

/-- A selector that compiles can be searched. -/
theorem isSearchable_of_compile {text : String} {s : Selector} (h : compile text = .ok s) :
    s.IsSearchable := by
  obtain ⟨_, core, _, hcore, -, -, -, hread⟩ := exists_core_of_compile h
  have hsound := isSound_of_compile h
  constructor
  · exact ne_nil_of_alternativesOf hread
  · exact hsound
  · intro step steps rest hs
    rw [hs] at hread
    have hhead : { step with combinator := .descendant } :: steps = step :: steps :=
      headed_of_alternativesOf hcore hread
    rw [← (List.cons.inj hhead).1]
  · exact fun a ha step hstep ↦ Plan.exists_ofStep? ((hsound a ha).steps step hstep).isRead

/-- A selector with names in upper case, with what is reserved and escaped in names, and with all
ways of asking for attributes. -/
theorem isSearchable_of_compile_escaped :
    let s : Selector := ⟨"UL.a > \\.LI#x[ DATA-\\=1 ] , [title ^= 'Q ']",
      [[⟨some "ul", .descendant, [⟨"class", .anyWord, "a"⟩]⟩,
        ⟨some ".li", .child, [⟨"id", .equals, "x"⟩, ⟨"data-=1", .present, ""⟩]⟩],
      [⟨none, .descendant, [⟨"title", .startsWith, "Q "⟩]⟩]]⟩
    compile " UL.a > \\.LI#x[ DATA-\\=1 ] , [title ^= 'Q ']" = .ok s ∧ s.IsSearchable := by
  intro s
  have h : compile " UL.a > \\.LI#x[ DATA-\\=1 ] , [title ^= 'Q ']" = .ok s := by rfl
  exact ⟨h, isSearchable_of_compile h⟩

end Selector

end MarkupSelect
