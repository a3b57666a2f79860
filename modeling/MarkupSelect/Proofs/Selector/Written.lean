import MarkupSelect.Proofs.Selector.Bracket
import MarkupSelect.Proofs.Selector.Ends

/-!
# The compiler reads its grammar

Each piece of a written selector brings the builder from one part to the next, whatever has been
read before: the parts of a step add what they ask for, the gap behind a step completes it and a
comma completes the alternative. So the compiler finds the alternatives that are meant, however the
selector is laid out.
-/

namespace MarkupSelect

open Grammar

namespace Builder

variable {b c : Builder}

/-! ### Steps -/

/-- The builder when some parts have been added to its step. -/
def withParts (c : Builder) (parts : List Part) : Builder :=
  { c with
    reading := .between
    predicates := c.predicates ++ parts.filterMap Part.predicate?
    classes := c.classes ++ parts.filterMap Part.class? }

/-- Parts in a row are added one behind the other. -/
theorem withParts_append (c : Builder) (parts rest : List Part) :
    c.withParts (parts ++ rest) = (c.withParts parts).withParts rest := by
  simp [withParts]

/-- A part is added to the step. -/
theorem exists_readsText_part (h : b.settle = .ok c) (part : Part) :
    ∃ d, ReadsText b part.written d ∧ d.settle = .ok (c.withParts [part]) := by
  cases part with
  | identifier word =>
    refine ⟨_, readsText_shorthand h .identifier word, ?_⟩
    have hne : word.chars.isEmpty = false := by simpa using word.ne_nil
    simp [settle, withShorthand, hne, withParts, Part.predicate?, Part.class?]
  | className word =>
    refine ⟨_, readsText_shorthand h .className word, ?_⟩
    have hne : word.chars.isEmpty = false := by simpa using word.ne_nil
    simp [settle, withShorthand, hne, withParts, Part.predicate?, Part.class?]
  | bracket bracket =>
    refine ⟨_, readsText_bracket h bracket, ?_⟩
    rw [settle_of_between rfl]
    simp [withParts, Part.predicate?, Part.class?]

/-- Parts are added to the step one by one. -/
theorem exists_readsText_parts (h : b.settle = .ok c) (parts : List Part) :
    ∃ d, ReadsText b (parts.flatMap Part.written) d ∧ d.settle = .ok (c.withParts parts) := by
  induction parts generalizing b c with
  | nil =>
    have hreading := reading_of_settle h
    refine ⟨b, .nil b, ?_⟩
    rw [h]
    simp [withParts, ← hreading]
  | cons part parts ih =>
    obtain ⟨d, hd, hsettle⟩ := exists_readsText_part h part
    obtain ⟨e, he, hend⟩ := ih hsettle
    refine ⟨e, hd.append he, ?_⟩
    rw [hend, ← withParts_append, List.singleton_append]

private theorem exists_readsText_tag (lead : Lead) (tag : Option Word) :
    ∃ d, ReadsText lead.builder (tag.elim [] Word.chars) d ∧
      d.settle =
        .ok { lead.builder with tag := tag.map fun word ↦ Grammar.lowered word.chars } := by
  cases tag with
  | none => exact ⟨_, .nil _, rfl⟩
  | some word => exact ⟨_, readsText_tagName rfl word, rfl⟩

private theorem not_isIdle_withParts {parts : List Part} (h : c.tag.isSome ∨ parts ≠ []) :
    ¬ (c.withParts parts).IsIdle := by
  intro hidle
  rcases h with h | h
  · have htag : c.tag = none := hidle.tag
    simp [htag] at h
  · obtain ⟨part, rest, rfl⟩ := List.exists_cons_of_ne_nil h
    -- A part that is no class has a predicate.
    have hpredicates := (List.append_eq_nil_iff.mp hidle.predicates).2
    have hclasses := (List.append_eq_nil_iff.mp hidle.classes).2
    cases part <;> simp [Part.predicate?, Part.class?] at hpredicates hclasses

/-- A step is read behind those that are complete. -/
theorem exists_leaves_compound (lead : Lead) (compound : Compound) :
    ∃ d, ReadsText lead.builder compound.written d ∧
      d.Leaves lead.alternatives (lead.steps ++ [compound.step lead.combinator]) := by
  obtain ⟨d, hd, hsettle⟩ := exists_readsText_tag lead compound.tag
  obtain ⟨e, he, hend⟩ := exists_readsText_parts hsettle compound.parts
  refine ⟨e, hd.append he, _, hend, ?_⟩
  have hasks := compound.asks
  rw [endStep_of_not_isIdle (not_isIdle_withParts (by simpa using hasks))]
  rfl

/-! ### Alternatives -/

/-- A gap completes the step and tells how the next one lies. -/
theorem readsText_gap {alternatives : List Alternative} {steps : List Step}
    (h : b.Leaves alternatives steps) (gap : Gap) :
    ReadsText b gap.written (Lead.builder ⟨alternatives, steps, gap.combinator⟩) := by
  cases gap with
  | descendant blanks hne => exact h.blanks hne blanks.isBlank
  | child before behind => exact h.child before.isBlank behind.isBlank

/-- An alternative is read behind the steps and alternatives that are complete. -/
theorem exists_leaves_chain (lead : Lead) (chain : Chain) :
    ∃ d, ReadsText lead.builder chain.written d ∧
      d.Leaves lead.alternatives (lead.steps ++ chain.steps lead.combinator) := by
  induction chain generalizing lead with
  | last compound => exact exists_leaves_compound lead compound
  | step compound gap rest ih =>
    obtain ⟨d, hd, hleaves⟩ := exists_leaves_compound lead compound
    obtain ⟨e, he, hend⟩ := ih ⟨lead.alternatives, _, gap.combinator⟩
    refine ⟨e, (hd.append (readsText_gap hleaves gap)).append he, ?_⟩
    rw [Chain.steps, List.append_cons]
    exact hend

private theorem steps_ne_nil (combinator : Combinator) (chain : Chain) :
    chain.steps combinator ≠ [] := by
  cases chain <;> exact List.cons_ne_nil _ _

/-- All alternatives are read. -/
theorem exists_finish_choice (init : List Alternative) (choice : Choice) :
    ∃ d, ReadsText (Lead.builder ⟨init, [], .descendant⟩) choice.written d ∧
      d.finish = .ok (init ++ choice.alternatives) := by
  induction choice generalizing init with
  | last chain =>
    obtain ⟨d, hd, hleaves⟩ := exists_leaves_chain ⟨init, [], .descendant⟩ chain
    exact ⟨d, hd, hleaves.finish (steps_ne_nil _ chain)⟩
  | alternative chain before behind rest ih =>
    obtain ⟨d, hd, hleaves⟩ := exists_leaves_chain ⟨init, [], .descendant⟩ chain
    obtain ⟨e, he, hend⟩ := ih (init ++ [chain.steps .descendant])
    have hcomma := hleaves.comma (steps_ne_nil _ chain) before.isBlank behind.isBlank
    refine ⟨e, (hd.append hcomma).append he, ?_⟩
    rw [hend, Choice.alternatives, List.append_assoc, List.singleton_append]

end Builder

/-! ### The ends of what is written -/

namespace Grammar

open Selector

/-- A word has the ends of a selector. -/
theorem Word.hasEnds (word : Word) : HasEnds word.chars := by
  refine (Text.Ends.of_forall word.ne_nil word.isPlain).mono ?_ ?_
  · exact fun c hc ↦ ⟨hc.2, by simp [hc.1]⟩
  · exact fun c hc ↦ ⟨hc.2, by simp [hc.1]⟩

/-- What begins with the first character of a part and ends as a selector has its ends. -/
theorem hasEnds_cons {c : Char} {text : List Char} (hc : c ∈ ['#', '.', '['])
    (h : ∃ d, text.getLast? = some d ∧ Closes d) : HasEnds (c :: text) := by
  obtain ⟨d, hd, hcloses⟩ := h
  have hblank : ∀ c ∈ ['#', '.', '['], Text.isBlank c = false :=
    List.all_iff_forall_prop.mp (by decide)
  constructor
  · exact ⟨c, rfl, hblank c hc, fun _ ↦ hc⟩
  · exact ⟨d, by rw [List.getLast?_cons, hd, Option.getD_some], hcloses⟩

/-- A part has the ends of a selector. -/
theorem Part.hasEnds (part : Part) : HasEnds part.written := by
  cases part with
  | identifier word => exact hasEnds_cons (by decide) word.hasEnds.last
  | className word => exact hasEnds_cons (by decide) word.hasEnds.last
  | bracket bracket =>
    refine hasEnds_cons (by decide) ⟨']', ?_, by decide, fun _ ↦ rfl⟩
    rw [List.getLast?_append, Bracket.ending]
    cases bracket.test <;> simp

private theorem hasEnds_parts {parts : List Part} (h : parts ≠ []) :
    HasEnds (parts.flatMap Part.written) := by
  induction parts with
  | nil => contradiction
  | cons part parts ih =>
    rw [List.flatMap_cons]
    by_cases hparts : parts = []
    · rw [hparts, List.flatMap_nil, List.append_nil]
      exact part.hasEnds
    · simpa using part.hasEnds.append [] (ih hparts)

/-- A step has the ends of a selector. -/
theorem Compound.hasEnds (compound : Compound) : HasEnds compound.written := by
  have hasks := compound.asks
  rw [written]
  generalize compound.tag = tag, compound.parts = parts at hasks ⊢
  cases tag with
  | none =>
    have hparts : parts ≠ [] := hasks.resolve_left (by simp)
    exact hasEnds_parts hparts
  | some word =>
    rw [Option.elim_some]
    by_cases hparts : parts = []
    · rw [hparts, List.flatMap_nil, List.append_nil]
      exact word.hasEnds
    · simpa using word.hasEnds.append [] (hasEnds_parts hparts)

/-- An alternative has the ends of a selector. -/
theorem Chain.hasEnds (chain : Chain) : HasEnds chain.written := by
  induction chain with
  | last compound => exact compound.hasEnds
  | step compound gap rest ih => exact compound.hasEnds.append gap.written ih

/-- Alternatives have the ends of a selector. -/
theorem Choice.hasEnds (choice : Choice) : HasEnds choice.written := by
  induction choice with
  | last chain => exact chain.hasEnds
  | alternative chain before behind rest ih => exact chain.hasEnds.append _ ih

/-- What is written stands for the alternatives that are meant. -/
theorem Choice.alternativesOf_written (choice : Choice) :
    alternativesOf choice.written = .ok choice.alternatives := by
  obtain ⟨b, hread, hfinish⟩ := Builder.exists_finish_choice [] choice
  rw [List.nil_append] at hfinish
  have hfeed := hread.reads 0
  rw [alternativesOf, Builder.empty]
  change (do (← Builder.feedAll (Lead.builder ⟨[], [], .descendant⟩) 0 _).finish) = _
  rw [hfeed]
  exact hfinish

/-- The compiler reads its grammar: of every selector, with whatever blanks and quotes it is
written, it finds the alternatives that are meant, and keeps the text without the blanks at its
ends. -/
theorem Source.compile_text (source : Source) :
    compile source.text = .ok ⟨String.ofList source.choice.written, source.choice.alternatives⟩ :=
  compile_of_hasEnds source.choice.hasEnds source.before.isBlank source.behind.isBlank
    source.choice.alternativesOf_written String.toList_ofList

end Grammar

end MarkupSelect
