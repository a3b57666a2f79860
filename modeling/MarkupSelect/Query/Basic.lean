import MarkupSelect.Locate
import MarkupSelect.Selector.Compile
import MarkupSelect.Text.Quoted

/-!
# Queries

A query runs a selector in a context: the whole document, or the contents of elements selected
before. The steps of an alternative follow one another, each in the contents of what the step before
has found; the alternatives run by themselves, and what they find is united, the first claim for an
offset standing. This is the matching engine of `SPEC_FULL.md` §4.6.
-/

namespace MarkupSelect

/-!
### Plans

A step that names a tag is searched by the tag name; its predicates filter what is found. A step
without a tag is searched by the identifier or the classes if it asks for nothing else, and by the
condition that its predicates make up otherwise. This is the dispatch of §4.6 and §12.
-/

/-- A way to search for what a step asks for: by a tag name, by an identifier, of which the first
occurrence counts, by classes, all of which must be there, by the attributes of a condition, or by a
tag name under a condition. -/
inductive Plan where
  | tag (name : String)
  | id (value : String)
  | classes (words : List Bytes)
  | condition (condition : Condition)
  | tagUnder (name : String) (condition : Condition)
deriving DecidableEq, Repr

/-- The atom that a predicate asks for. -/
def Predicate.atom (p : Predicate) : Atom := ⟨p.name, p.operator, p.value⟩

/-- The condition that all predicates of a step make up. -/
def Step.condition (s : Step) : Condition := .all (s.predicates.map Predicate.atom)

/-- Whether a predicate asks for the identifier alone. -/
def Predicate.isIdentifier (p : Predicate) : Bool := p.name == "id" && p.operator == .equals

/-- Whether a predicate asks for classes all of which must be there; of several words `~=` asks only
for one. -/
def Predicate.asksAllClasses (p : Predicate) : Bool :=
  p.name == "class" &&
    match p.operator with
    | .allWords => true
    | .anyWord => (Bytes.words (Bytes.ofString p.value)).length == 1
    | _ => false

namespace Plan

/-- The way to search for a step; a step that asks for nothing has none. -/
def ofStep? (s : Step) : Option Plan :=
  match s.tag, s.predicates with
  | some name, [] => some (.tag name)
  | some name, _ => some (.tagUnder name s.condition)
  | none, [] => none
  | none, [p] =>
    if p.isIdentifier then some (.id p.value)
    else if p.asksAllClasses then some (.classes (Bytes.words (Bytes.ofString p.value)))
    else some (.condition s.condition)
  | none, _ => some (.condition s.condition)

/-- The start tags that a plan finds in a region. -/
def search (plan : Plan) (r : Region) : Matches :=
  match plan with
  | .tag name => r.findTags (Bytes.ofString name) fun _ ↦ .keep
  | .id value => r.findId (Bytes.ofString value)
  | .classes words => r.findClass words
  | .condition c => r.findCondition c
  | .tagUnder name c =>
    r.findTags (Bytes.ofString name) fun tag ↦
      .ofBool (c.evaluate (AttributeMap.ofMarkupValid tag))

/-- The elements that a plan finds anywhere in a region. -/
def descendants (plan : Plan) (r : Region) : List (Nat × Bytes) :=
  (plan.search r).entries.map fun e ↦ (e.1, Element.expand r.text (e.1 - r.base) e.2)

end Plan

/-! ### Steps, alternatives and selectors -/

/-- Where a query begins: in the whole document, or in the contents of elements; §4.6, scopes. -/
inductive Context where
  | document
  | selected (elements : Matches)
deriving DecidableEq

/-- The regions in which the contents of elements lie; an element without content has none. -/
def Matches.contents (m : Matches) : List Region :=
  m.entries.filterMap fun e ↦ Region.content? e.1 e.2

/-- The regions in which a query begins. -/
def Context.regions (context : Context) (document : Bytes) : List Region :=
  match context with
  | .document => [.whole document]
  | .selected elements => elements.contents

namespace Step

/-- The elements that a plan finds in a region, as the combinator wants them to lie in it; §12 has
the rule for children. -/
def hitsIn (plan : Plan) (combinator : Combinator) (r : Region) : List (Nat × Bytes) :=
  match combinator with
  | .descendant => plan.descendants r
  | .child =>
    (r.children.filter fun child ↦
      (plan.search ⟨child.offset, child.startTag⟩).contains child.offset).map
        fun child ↦ (child.offset, child.element)

/-- The elements that a step selects in some regions. -/
def select (s : Step) (regions : List Region) : Matches :=
  match Plan.ofStep? s with
  | none => .empty
  | some plan => .ofList (regions.flatMap (hitsIn plan s.combinator))

end Step

/-- What one step of a query did: how many regions were searched, and what was found in them. -/
structure Stage where
  regions : Nat
  hits : Matches
deriving DecidableEq

namespace Alternative

/-- The stages of an alternative, from given regions up to its last step or to the first that finds
nothing. -/
def stages (regions : List Region) : Alternative → List Stage
  | [] => []
  | step :: steps =>
    let hits := step.select regions
    ⟨regions.length, hits⟩ :: if hits.isEmpty then [] else stages hits.contents steps

/-- What an alternative selects: what its last stage finds. -/
def select (a : Alternative) (document : Bytes) (context : Context) : Matches :=
  match (stages (context.regions document) a).getLast? with
  | some stage => stage.hits
  | none =>
    match context with
    | .document => .empty
    | .selected elements => elements

end Alternative

/-- What is reported of a query: that the step of an index has searched some regions and found some
hits, and that the query of a selector has come to its end; §11.2. -/
inductive QueryEvent where
  | step (index regions hits : Nat)
  | finished (source : String) (context : Context) (found : Nat)
deriving DecidableEq

/-- The name of the scope in which a context lets a query search. -/
def Context.scope : Context → String
  | document => "Raw"
  | selected _ => "Descendant"

/-- The wording of a report. -/
def QueryEvent.message : QueryEvent → String
  | step index regions hits =>
    "step " ++ toString index ++ " over " ++ toString regions ++ " region(s): " ++ toString hits ++
      " hit(s)"
  | finished source context found =>
    Text.quoted source ++ " in " ++ context.scope ++ " scope: " ++ toString found ++ " match(es)"

namespace Selector

/-- The elements that a selector selects in a context; §6, `query`. -/
def query (s : Selector) (document : Bytes) (context : Context) : Matches :=
  s.alternatives.foldl (fun found a ↦ found.union (a.select document context)) .empty

/-- The reports of a query, in order. -/
def events (s : Selector) (document : Bytes) (context : Context) : List QueryEvent :=
  (s.alternatives.flatMap fun a ↦
    (Alternative.stages (context.regions document) a).mapIdx fun i stage ↦
      .step i stage.regions stage.hits.size) ++
    [.finished s.source context (s.query document context).size]

end Selector

/-- The elements in a context that meet a condition on their attributes. -/
def Condition.query (c : Condition) (document : Bytes) (context : Context) : Matches :=
  .ofList ((context.regions document).flatMap (Plan.condition c).descendants)

/-- The elements that a text selects in a context; a text that is no selector selects none. -/
def queryText (document : Bytes) (context : Context) (text : String) : Matches :=
  match Selector.compile text with
  | .ok selector => selector.query document context
  | .error _ => .empty

end MarkupSelect
