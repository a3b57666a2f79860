import MarkupSelect.Proofs.Selector.Settled

/-!
# Reading behind a lead

A text that is read behind other text is read as it is by itself, once something of it has been
read: all that the text in front of it adds are the alternatives and steps that are there already
and the combinator of the first step. What has been read comes to stand behind those, lexeme by
lexeme.
-/

namespace MarkupSelect

/-- An alternative with another combinator in front of its first step. -/
def Alternative.headed (combinator : Combinator) : Alternative → Alternative
  | [] => []
  | s :: steps => { s with combinator := combinator } :: steps

/-- What has been read of a selector when a step is to begin: the alternatives that are complete,
the steps of this one, and the combinator in front of the step. -/
structure Lead where
  alternatives : List Alternative
  steps : List Step
  combinator : Combinator

namespace Lead

/-- The builder that goes on behind a lead. -/
def builder (lead : Lead) : Builder :=
  ⟨.between, lead.alternatives, lead.steps, none, [], [], lead.combinator⟩

/-- The alternatives of a lead with those that are read behind it: the first of these goes on with
the steps of the lead. -/
def join (lead : Lead) : List Alternative → List Alternative
  | [] => lead.alternatives
  | a :: rest => lead.alternatives ++ (lead.steps ++ a.headed lead.combinator) :: rest

end Lead

namespace Builder

variable {b : Builder} {lead : Lead}

/-- A builder with what it has read put behind a lead. -/
def behind (lead : Lead) (b : Builder) : Builder :=
  { b with
    alternatives := lead.join b.alternatives
    steps :=
      if b.alternatives.isEmpty then lead.steps ++ Alternative.headed lead.combinator b.steps
      else b.steps
    pending :=
      if b.alternatives.isEmpty && b.steps.isEmpty then lead.combinator else b.pending }

/-- A step or an alternative has come to its end. -/
def HasEnded (b : Builder) : Prop := b.steps ≠ [] ∨ b.alternatives ≠ []

/-- There will be a step at the end of what is being read. -/
def HasStep (b : Builder) : Prop := b.endStep.HasEnded

/-- Something has been read. -/
def HasBegun (b : Builder) : Prop := b.reading ≠ .between ∨ b.HasStep

/-! ### Steps and alternatives behind a lead -/

private theorem isEmpty_of_hasEnded (h : b.HasEnded) :
    (b.alternatives.isEmpty && b.steps.isEmpty) = false := by
  rw [Bool.eq_false_iff, Ne, Bool.and_eq_true, List.isEmpty_iff, List.isEmpty_iff]
  rintro ⟨halternatives, hsteps⟩
  exact h.elim (· hsteps) (· halternatives)

private theorem pending_behind (lead : Lead) (h : b.HasEnded) :
    (b.behind lead).pending = b.pending := by
  rw [behind, isEmpty_of_hasEnded h]
  rfl

private theorem behind_withPending (h : b.HasEnded) (pending : Combinator) :
    behind lead { b with pending := pending } = { behind lead b with pending := pending } := by
  simp only [behind, isEmpty_of_hasEnded h]
  rfl

/-- A step ends behind a lead as it does by itself. -/
theorem endStep_behind (lead : Lead) (b : Builder) :
    (b.behind lead).endStep = b.endStep.behind lead := by
  by_cases h : b.IsIdle
  · have hbehind : (b.behind lead).IsIdle := ⟨h.tag, h.predicates, h.classes⟩
    rw [h.endStep, hbehind.endStep]
  · have hbehind : ¬ (b.behind lead).IsIdle := fun hb ↦ h ⟨hb.tag, hb.predicates, hb.classes⟩
    rw [endStep_of_not_isIdle h, endStep_of_not_isIdle hbehind]
    cases halternatives : b.alternatives with
    | cons a rest => simp [behind, halternatives]
    | nil =>
      -- The first step of all takes the combinator of the lead.
      cases hsteps : b.steps with
      | nil => simp [behind, halternatives, hsteps, Alternative.headed]
      | cons s steps => simp [behind, halternatives, hsteps, Alternative.headed]

/-- Of a tag name, a predicate or a class there will be a step. -/
theorem hasStep_of_not_isIdle (h : ¬ b.IsIdle) : b.HasStep := by
  rw [HasStep, endStep_of_not_isIdle h]
  exact .inl (List.concat_ne_nil _ _)

/-- A part that begins a text begins behind a lead where it is read on. -/
theorem behind_opened (lead : Lead) (reading : Reading) :
    behind lead { empty with reading := reading } = { lead.builder with reading := reading } := by
  simp [behind, empty, Lead.builder, Lead.join, Alternative.headed]

/-! ### Results behind a lead -/

/-- One builder comes out and has a property, and the other comes out with the same behind a lead;
or neither comes out. -/
inductive Follows (lead : Lead) (P : Builder → Prop) :
    Except SelectorError Builder → Except SelectorError Builder → Prop
  | ok {b : Builder} (h : P b) : Follows lead P (.ok b) (.ok (b.behind lead))
  | error (e e' : SelectorError) : Follows lead P (.error e) (.error e')

variable {P Q : Builder → Prop} {result other : Except SelectorError Builder}

private theorem Follows.mono (h : Follows lead P result other) (hPQ : ∀ b, P b → Q b) :
    Follows lead Q result other := by
  cases h with
  | ok h => exact .ok (hPQ _ h)
  | error e e' => exact .error e e'

private theorem Follows.bind {next next' : Builder → Except SelectorError Builder}
    (h : Follows lead P result other)
    (hnext : ∀ b, P b → Follows lead Q (next b) (next' (b.behind lead))) :
    Follows lead Q (result >>= next) (other >>= next') := by
  cases h with
  | ok h => exact hnext _ h
  | error e e' => exact .error e e'

private theorem follows_withReading (lead : Lead) (b : Builder) {reading : Reading}
    (h : reading ≠ .between) :
    Follows lead HasBegun (.ok { b with reading := reading })
      (.ok { b.behind lead with reading := reading }) :=
  .ok (.inl h)

/-! ### Parts behind a lead -/

private theorem follows_withTag (lead : Lead) (b : Builder) (name : List Char) :
    Follows lead HasStep (b.withTag name) ((b.behind lead).withTag name) := by
  have hstep : ∀ c : Builder, c.tag ≠ none → c.HasStep := fun c hc ↦
    hasStep_of_not_isIdle fun hidle ↦ hc hidle.tag
  have hsame : (b.behind lead).tag = b.tag := rfl
  unfold withTag
  dsimp only
  rw [hsame]
  split
  · refine .ok (hstep _ ?_)
    simp
  · next first htag =>
    by_cases hname : first = lowered name
    · rw [if_pos hname, if_pos hname]
      refine .ok (hstep _ ?_)
      simp [htag]
    · rw [if_neg hname, if_neg hname]
      exact .error _ _

private theorem follows_withShorthand (lead : Lead) (b : Builder) (kind : Shorthand)
    (name : List Char) :
    Follows lead HasStep (b.withShorthand kind name) ((b.behind lead).withShorthand kind name) := by
  unfold withShorthand
  by_cases hname : name.isEmpty = true
  · rw [if_pos hname, if_pos hname]
    exact .error _ _
  · rw [if_neg hname, if_neg hname]
    cases kind with
    | identifier =>
      exact .ok (hasStep_of_not_isIdle fun h ↦ List.concat_ne_nil _ _ h.predicates)
    | className => exact .ok (hasStep_of_not_isIdle fun h ↦ List.concat_ne_nil _ _ h.classes)

private theorem follows_withPredicate (lead : Lead) (b : Builder) (name symbol value : List Char) :
    Follows lead HasBegun (b.withPredicate name symbol value)
      ((b.behind lead).withPredicate name symbol value) := by
  unfold withPredicate
  cases operatorOf symbol with
  | error e => exact .error e e
  | ok operator =>
    exact .ok (.inr (hasStep_of_not_isIdle fun h ↦ List.concat_ne_nil _ _ h.predicates))

/-! ### Ends behind a lead -/

private theorem hasStep_of_isIdle (hidle : b.IsIdle) (h : b.HasEnded) : b.HasStep := by
  rwa [HasStep, hidle.endStep]

private theorem behind_endAlternative (h : b.HasEnded) :
    behind lead { b with alternatives := b.alternatives ++ [b.steps], steps := [] } =
      { behind lead b with
        alternatives := (behind lead b).alternatives ++ [(behind lead b).steps]
        steps := [] } := by
  cases halternatives : b.alternatives with
  | cons a rest => simp [behind, halternatives, Lead.join]
  | nil =>
    have hsteps : b.steps ≠ [] := h.resolve_right fun hne ↦ hne halternatives
    simp [behind, halternatives, hsteps, Lead.join]

private theorem isEmpty_steps_behind (lead : Lead) (h : b.HasEnded) :
    (b.behind lead).steps.isEmpty = b.steps.isEmpty := by
  cases halternatives : b.alternatives with
  | cons a rest => simp [behind, halternatives]
  | nil =>
    cases hsteps : b.steps with
    | nil => exact absurd h (by simp [HasEnded, halternatives, hsteps])
    | cons s steps => simp [behind, halternatives, hsteps, Alternative.headed]

private theorem follows_endAlternative (lead : Lead) (h : b.HasStep) :
    Follows lead HasBegun b.endAlternative (b.behind lead).endAlternative := by
  have hpending := pending_behind lead h
  unfold endAlternative
  dsimp only
  rw [endStep_behind, isEmpty_steps_behind lead h]
  by_cases hchild : b.endStep.pending = .child
  · rw [if_pos hchild, if_pos (hpending.trans hchild)]
    exact .error _ _
  rw [if_neg hchild, if_neg fun hc ↦ hchild (hpending.symm.trans hc)]
  by_cases hsteps : b.endStep.steps.isEmpty = true
  · rw [if_pos hsteps, if_pos hsteps]
    exact .error _ _
  rw [if_neg hsteps, if_neg hsteps, ← behind_endAlternative h]
  refine .ok (.inr (.inr ?_))
  rw [alternatives_endStep]
  exact List.concat_ne_nil _ _

/-! ### Lexemes behind a lead -/

variable (lead) (position position' : Nat) (l : Lexeme)

private theorem follows_between (h : b.HasStep) :
    Follows lead HasBegun (b.between position l) ((b.behind lead).between position' l) := by
  unfold between
  cases l.kind with
  | literal => exact follows_withReading lead b (by simp)
  | space =>
    dsimp only
    rw [endStep_behind]
    exact .ok (.inr (hasStep_of_isIdle (isIdle_endStep b) h))
  | punctuation =>
    dsimp only
    by_cases hid : l.char = '#'
    · rw [if_pos hid, if_pos hid]
      exact follows_withReading lead b (by simp)
    rw [if_neg hid, if_neg hid]
    by_cases hclass : l.char = '.'
    · rw [if_pos hclass, if_pos hclass]
      exact follows_withReading lead b (by simp)
    rw [if_neg hclass, if_neg hclass]
    by_cases hbracket : l.char = '['
    · rw [if_pos hbracket, if_pos hbracket]
      exact follows_withReading lead b (by simp)
    rw [if_neg hbracket, if_neg hbracket]
    by_cases hchild : l.char = '>'
    · rw [if_pos hchild, if_pos hchild, endStep_behind]
      have hsame := pending_behind lead h
      by_cases hpending : b.endStep.pending = .child
      · rw [if_pos hpending, if_pos (hsame.trans hpending)]
        exact .error _ _
      · rw [if_neg hpending, if_neg fun hc ↦ hpending (hsame.symm.trans hc),
          ← behind_withPending h]
        have hidle := isIdle_endStep b
        exact .ok (.inr (hasStep_of_isIdle ⟨hidle.tag, hidle.predicates, hidle.classes⟩ h))
    rw [if_neg hchild, if_neg hchild]
    by_cases hcomma : l.char = ','
    · rw [if_pos hcomma, if_pos hcomma]
      exact follows_endAlternative lead h
    · rw [if_neg hcomma, if_neg hcomma]
      exact .error _ _

private theorem follows_inOperator (b : Builder) (name symbol : List Char) :
    Follows lead HasBegun (b.inOperator position l name symbol)
      ((b.behind lead).inOperator position' l name symbol) := by
  unfold inOperator
  split
  · exact follows_withReading lead b (by simp)
  split
  · exact follows_withPredicate lead b name symbol []
  split
  · exact follows_withReading lead b (by simp)
  split
  · exact .error _ _
  split
  · exact follows_withReading lead b (by simp)
  · exact follows_withReading lead b (by simp)

private theorem follows_inAttributeName (b : Builder) (name : List Char) :
    Follows lead HasBegun (b.inAttributeName position l name)
      ((b.behind lead).inAttributeName position' l name) := by
  unfold inAttributeName
  cases l.kind with
  | literal => exact follows_withReading lead b (by simp)
  | space =>
    apply follows_withReading
    split <;> simp
  | punctuation =>
    dsimp only
    split
    · exact .error _ _
    · exact follows_inOperator lead position position' l b name []

private theorem follows_inValue (b : Builder) (name symbol : List Char) (quote : Option Char)
    (value : List Char) :
    Follows lead HasBegun (b.inValue l name symbol quote value)
      ((b.behind lead).inValue l name symbol quote value) := by
  unfold inValue
  cases quote with
  | some q =>
    dsimp only
    split
    · exact follows_withReading lead b (by simp)
    · exact follows_withReading lead b (by simp)
  | none =>
    dsimp only
    split
    · exact follows_withReading lead b (by simp)
    split
    · exact follows_withPredicate lead b name symbol value
    · exact follows_withReading lead b (by simp)

/-- One more lexeme is read behind a lead as it is by itself, wherever it stands. -/
theorem follows_feed (h : b.HasBegun) :
    Follows lead HasBegun (b.feed position l) ((b.behind lead).feed position' l) := by
  have hsame : (b.behind lead).reading = b.reading := rfl
  unfold feed
  rw [hsame]
  cases hreading : b.reading with
  | between => exact follows_between lead position position' l (h.resolve_left (· hreading))
  | tagName name =>
    dsimp only
    split
    · exact follows_withReading lead b (by simp)
    · exact (follows_withTag lead b name).bind fun c hc ↦
        follows_between lead position position' l hc
  | shorthand kind name =>
    dsimp only
    split
    · exact follows_withReading lead b (by simp)
    · exact (follows_withShorthand lead b kind name).bind fun c hc ↦
        follows_between lead position position' l hc
  | attributeName name => exact follows_inAttributeName lead position position' l b name
  | operator name symbol => exact follows_inOperator lead position position' l b name symbol
  | value name symbol quote value => exact follows_inValue lead l b name symbol quote value
  | afterValue name symbol value =>
    dsimp only
    split
    · exact .ok (.inl (by simp [hreading]))
    split
    · exact follows_withPredicate lead b name symbol value
    · exact .error _ _

/-- All lexemes are read behind a lead as they are by themselves. -/
theorem follows_feedAll (lexemes : List Lexeme) (h : b.HasBegun) :
    Follows lead HasBegun (b.feedAll position lexemes)
      ((b.behind lead).feedAll position' lexemes) := by
  induction lexemes generalizing b position position' with
  | nil => exact .ok h
  | cons l lexemes ih =>
    exact (follows_feed lead position position' l h).bind fun c hc ↦
      ih (position + 1) (position' + 1) hc

private theorem follows_settle (h : b.HasBegun) :
    Follows lead HasStep b.settle (b.behind lead).settle := by
  have hsame : (b.behind lead).reading = b.reading := rfl
  unfold settle
  rw [hsame]
  cases hreading : b.reading with
  | between => exact .ok (h.resolve_left (· hreading))
  | tagName name => exact follows_withTag lead b name
  | shorthand kind name => exact follows_withShorthand lead b kind name
  | _ => exact .error _ _

/-- What is read behind a lead comes to its end exactly if it does by itself, and as it does. -/
theorem finish_behind_iff (h : b.HasBegun) {alternatives : List Alternative} :
    (b.behind lead).finish = .ok alternatives ↔
      ∃ own, b.finish = .ok own ∧ alternatives = lead.join own := by
  have hend : Follows lead HasBegun (b.settle >>= endAlternative)
      ((b.behind lead).settle >>= endAlternative) :=
    (follows_settle lead h).bind fun c hc ↦ follows_endAlternative lead hc
  have hsplit : ∀ b : Builder,
      b.finish = (·.alternatives) <$> (b.settle >>= endAlternative) := by
    intro b
    rw [finish_eq]
    cases b.settle <;> rfl
  rw [hsplit, hsplit]
  generalize b.settle >>= endAlternative = result at hend
  generalize (b.behind lead).settle >>= endAlternative = other at hend
  cases hend with
  | @ok c _ =>
    constructor
    · intro hfinish
      exact ⟨c.alternatives, rfl, (Except.ok.inj hfinish).symm⟩
    · rintro ⟨own, hown, rfl⟩
      rw [← Except.ok.inj hown]
      rfl
  | error e e' =>
    constructor
    · intro hfinish
      contradiction
    · rintro ⟨own, hown, -⟩
      contradiction

end Builder

end MarkupSelect
