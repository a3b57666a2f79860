import MarkupSelect.Proofs.Condition.Written
import MarkupSelect.Proofs.Query.Fits
import MarkupSelect.Proofs.Query.Stages
import MarkupSelect.Proofs.Selector.Written

/-!
# Selectors and conditions agree

Questions about attributes can be asked by the brackets of a selector or by the clauses of a
condition. Both ways are read as the same comparisons, and a search by the one finds what a search
by the other finds. Only a single question for an identifier is apart: as a selector it stops at the
first element that it finds.
-/

namespace MarkupSelect

/-! ### Searches -/

namespace Plan

variable {s : Step} {plan : Plan}

/-- Without a tag name, and unless it asks for an identifier alone, a step is searched as its
condition is. -/
theorem search_of_ofStep? (htag : s.tag = none) (hp : ofStep? s = some plan)
    (hid : ∀ p, s.predicates = [p] → p.isIdentifier = false) (r : Region) :
    plan.search r = (Plan.condition s.condition).search r := by
  cases of_ofStep? hp with
  | tag h _ =>
    rw [htag] at h
    contradiction
  | tagUnder h =>
    rw [htag] at h
    contradiction
  | condition _ _ => rfl
  | @id p _ hpreds hident =>
    rw [hid p hpreds] at hident
    contradiction
  | @classes p _ hpreds hall =>
    apply Matches.ext_mem
    intro e
    have hcondition : s.condition = .all [p.atom] := by
      rw [Step.condition, hpreds]
      rfl
    have hanchors : (Condition.all [p.atom]).anchors = ["class"] := by
      rw [← name_of_asksAllClasses hall]
      rfl
    have hevaluate : (Condition.all [p.atom]).evaluate (.ofMarkupValid e.2) = true ↔
        Accepts e.2 (.classes (Bytes.words (Bytes.ofString p.value))) := by
      rw [accepts_classes_iff hall, Condition.evaluate_all, List.all_cons, List.all_nil,
        Bool.and_true]
    rw [search, search, Region.mem_findClass_iff, Region.mem_findCondition_iff, hcondition,
      hanchors, hevaluate]
    simp [Accepts]

end Plan

/-- A step without a tag name selects what a query for its condition finds, unless it asks for an
identifier alone. -/
theorem Step.select_eq_query {s : Step} (hs : s.IsRead) (htag : s.tag = none)
    (hcombinator : s.combinator = .descendant)
    (hid : ∀ p, s.predicates = [p] → p.isIdentifier = false) (document : Bytes)
    (context : Context) :
    s.select (context.regions document) = s.condition.query document context := by
  obtain ⟨plan, hplan⟩ := Plan.exists_ofStep? hs
  have hhits : hitsIn plan s.combinator = (Plan.condition s.condition).descendants := by
    funext r
    rw [hcombinator, hitsIn, Plan.descendants, Plan.search_of_ofStep? htag hplan hid,
      Plan.descendants]
  unfold select
  rw [hplan]
  dsimp only
  rw [hhits, Condition.query]

/-! ### Questions -/

namespace Grammar

/-- A question about one attribute that brackets and clauses can ask: whether it is there, or how
its value compares with another one. -/
inductive Question where
  | present (field : Field)
  | compares (field : Field) (operator : Operator) (hasSymbol : operator ≠ .present)
    (value : List Char)

/-- No blanks. -/
def Blanks.none : Blanks := ⟨[], List.forall_mem_nil _⟩

/-- One blank. -/
def Blanks.one : Blanks := ⟨[' '], List.forall_mem_singleton.mpr rfl⟩

/-- A field as the name of an attribute. -/
def Field.name (field : Field) : Name :=
  ⟨field.chars, field.ne_nil, field.notBlank⟩

/-- Nothing in a field is escaped. -/
theorem Field.written_name (field : Field) : field.name.written = field.chars :=
  Text.escape_eq_self (field.forall_of_all (by decide))

namespace Question

/-- A question as it is written in a bracket and in a clause: `field` or `field op "value"`. -/
def written : Question → List Char
  | present field => field.chars
  | compares field operator _ value =>
    field.chars ++ ' ' :: (operator.symbol.toList ++ ' ' :: Text.Quote.double.enclose value)

/-- The comparison that is asked for. -/
def predicate : Question → Predicate
  | present field => ⟨String.ofList field.chars, .present, ""⟩
  | compares field operator _ value =>
    ⟨String.ofList field.chars, operator, String.ofList value⟩

/-- Questions as a selector: one bracket behind the other. -/
def selectorText (questions : List Question) : String :=
  String.ofList (questions.flatMap fun q ↦ '[' :: (q.written ++ [']']))

/-- Questions as a condition: clauses joined by ` AND `. -/
def conditionText (questions : List Question) : String :=
  String.ofList (" AND ".toList.intercalate (questions.map written))

/-! ### Brackets and clauses -/

/-- The clause of a question. -/
def clause : Question → Clause
  | present field => .present field
  | compares field operator hasSymbol value =>
    .compares field ⟨operator.symbol, operator, by
      revert hasSymbol
      cases operator <;> decide⟩ .double value

/-- The bracket of a question. -/
def bracket : Question → Bracket
  | present field => ⟨.none, field.name, .none, none⟩
  | compares field operator hasSymbol value =>
    ⟨.none, field.name, .one, some ⟨operator, hasSymbol, .one, .double, value, .none⟩⟩

variable (q : Question) {questions : List Question}

/-- The clause of a question is written as the question is. -/
theorem written_clause : q.clause.written = q.written := by
  cases q <;> rfl

/-- The clause of a question stands for what the question asks for. -/
theorem atom_clause : q.clause.atom = q.predicate.atom := by
  cases q <;> rfl

/-- The bracket of a question is written as the question is, between brackets. -/
theorem written_bracket : q.bracket.written = '[' :: (q.written ++ [']']) := by
  cases q with
  | present field =>
    simp [bracket, Bracket.written, Bracket.ending, field.written_name, written, Blanks.none]
  | compares field operator hasSymbol value =>
    simp [bracket, Bracket.written, Bracket.ending, field.written_name, written, Blanks.none,
      Blanks.one, Test.written]

/-- The bracket of a question stands for what the question asks for. -/
theorem predicate_bracket : q.bracket.predicate = q.predicate := by
  cases q with
  | present field =>
    simp [bracket, Bracket.predicate, predicate, Field.name, lowered, map_toLower field.isLow]
  | compares field operator hasSymbol value =>
    simp [bracket, Bracket.predicate, predicate, Field.name, lowered, map_toLower field.isLow]

/-- The step that all questions make up. -/
def compound (questions : List Question) (hne : questions ≠ []) : Compound :=
  ⟨none, questions.map fun q ↦ .bracket q.bracket, .inr (by simpa using hne)⟩

/-- The step asks for what the questions ask for. -/
theorem step_compound (hne : questions ≠ []) :
    (compound questions hne).step .descendant = ⟨none, .descendant, questions.map predicate⟩ := by
  have hpredicates : (questions.map fun q ↦ Part.bracket q.bracket).filterMap Part.predicate? =
      questions.map predicate := by
    have hpart : Part.predicate? ∘ (fun q ↦ Part.bracket (bracket q)) = some ∘ predicate :=
      funext fun q ↦ congrArg some (predicate_bracket q)
    rw [List.filterMap_map, hpart, List.filterMap_eq_map]
  have hclasses : (questions.map fun q ↦ Part.bracket q.bracket).filterMap Part.class? = [] := by
    simp [List.filterMap_map, Part.class?]
  rw [Compound.step, Compound.classPredicates, compound, hpredicates, hclasses, List.append_nil]
  rfl

/-- The step is written as the questions are. -/
theorem written_compound (hne : questions ≠ []) : (compound questions hne).written =
    questions.flatMap fun q ↦ '[' :: (q.written ++ [']']) := by
  rw [Compound.written, compound, Option.elim_none, List.nil_append, List.flatMap_map]
  exact congrArg (questions.flatMap ·) (funext written_bracket)

/-- The brackets of questions are compiled to one step. -/
theorem compile_selectorText (hne : questions ≠ []) :
    Selector.compile (selectorText questions) =
      .ok ⟨selectorText questions, [[⟨none, .descendant, questions.map predicate⟩]]⟩ := by
  have hread := (Choice.last (.last (compound questions hne))).alternativesOf_written
  have hends := (compound questions hne).hasEnds
  rw [Choice.written, Chain.written, Choice.alternatives, Chain.steps, step_compound,
    written_compound] at hread
  rw [written_compound] at hends
  apply Selector.compile_of_hasEnds hends (List.forall_mem_nil _) (List.forall_mem_nil _) hread
  rw [selectorText, String.toList_ofList, List.nil_append, List.append_nil]

/-- The clauses of questions are read as one group. -/
theorem read_conditionText (hne : questions ≠ []) :
    Condition.read (conditionText questions) =
      .ok ⟨[(questions.map predicate).map Predicate.atom]⟩ := by
  have hclauses : questions.map clause ≠ [] := by simpa using hne
  have hread := Condition.read_group hclauses
  rw [group, List.map_map, List.map_map] at hread
  have hwritten : Clause.written ∘ clause = written := funext written_clause
  have hatom : Clause.atom ∘ clause = Predicate.atom ∘ predicate := funext atom_clause
  rw [hwritten, hatom] at hread
  rw [conditionText, hread, List.map_map]

/-! ### Agreement -/

/-- Questions are answered alike by brackets and by a condition: unless there is a single one that
asks for an identifier, the query for the selector finds the elements that the query for the
condition finds, in every document and every context. -/
theorem query_selectorText {questions : List Question} (hne : questions ≠ [])
    (hid : ∀ value, questions.map predicate ≠ [⟨"id", .equals, value⟩]) :
    ∃ s c, Selector.compile (selectorText questions) = .ok s ∧
      Condition.read (conditionText questions) = .ok c ∧
        ∀ document context, s.query document context = c.query document context := by
  have hcompile := compile_selectorText hne
  refine ⟨_, _, hcompile, read_conditionText hne, fun document context ↦ ?_⟩
  have hread := (Selector.isRead_of_compile hcompile _ (List.mem_singleton_self _)).steps _
    (List.mem_singleton_self _)
  have hsingle : ∀ p, questions.map predicate = [p] → p.isIdentifier = false := by
    rintro ⟨name, operator, value⟩ hp
    rw [Bool.eq_false_iff]
    intro hident
    obtain ⟨rfl, rfl⟩ := Plan.name_operator_of_isIdentifier hident
    exact hid value hp
  rw [Selector.query_of_singleton rfl, Alternative.select_eq_found (List.cons_ne_nil _ _),
    Alternative.found_singleton, Step.select_eq_query hread rfl rfl hsingle, Step.condition,
    Condition.all, if_neg (by simpa using hne)]

/-- A question for a class, and one with a quote, a bracket, a backslash and both separators in its
value. -/
theorem query_selectorText_class :
    let name : Field := ⟨['c', 'l', 'a', 's', 's'], by decide, by simp [fieldChars]⟩
    let title : Field := ⟨['t', 'i', 't', 'l', 'e'], by decide, by simp [fieldChars]⟩
    let questions : List Question := [.compares name .anyWord (by decide) ['x'],
      .compares title .equals (by decide) "a\"] AND b\\ OR c".toList]
    (questions ≠ [] ∧ ∀ value, questions.map predicate ≠ [⟨"id", .equals, value⟩]) ∧
      ∃ s c, Selector.compile (selectorText questions) = .ok s ∧
        Condition.read (conditionText questions) = .ok c ∧
          ∀ document context, s.query document context = c.query document context := by
  intro name title questions
  have hne : questions ≠ [] := by simp [questions]
  have hid : ∀ value, questions.map predicate ≠ [⟨"id", .equals, value⟩] := by simp [questions]
  exact ⟨⟨hne, hid⟩, query_selectorText hne hid⟩

end Question

end Grammar

end MarkupSelect
