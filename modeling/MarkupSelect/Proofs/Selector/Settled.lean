import MarkupSelect.Proofs.Selector.Lexemes

/-!
# The end of what is being read

Whatever is no literal ends the tag name or the short form in front of it, as the end of the text
does. Blanks end the step besides; further blanks, a combinator or a comma find it ended.
-/

namespace MarkupSelect

/-- A result of two steps comes from a result of the first. -/
theorem exists_of_bind {ε α β : Type} {result : Except ε α} {next : α → Except ε β} {b : β}
    (h : result >>= next = .ok b) : ∃ a, result = .ok a ∧ next a = .ok b := by
  cases result with
  | error e => contradiction
  | ok a => exact ⟨a, rfl, h⟩

namespace Builder

variable {b c d : Builder} {l : Lexeme} {ls ms : List Lexeme}

/-! ### Runs -/

/-- A builder that has read some lexemes is another one, wherever the lexemes stand. -/
def Reads (b : Builder) (lexemes : List Lexeme) (c : Builder) : Prop :=
  ∀ position, b.feedAll position lexemes = .ok c

/-- Reading nothing changes nothing. -/
theorem Reads.nil (b : Builder) : Reads b [] b := fun _ ↦ rfl

/-- The first lexeme is read and then the rest. -/
theorem Reads.cons (h : ∀ position, b.feed position l = .ok c) (hs : Reads c ls d) :
    Reads b (l :: ls) d := by
  intro position
  rw [feedAll, h]
  exact hs (position + 1)

/-- Lexemes that change nothing one by one change nothing. -/
theorem Reads.of_same (h : ∀ l ∈ ls, ∀ position, b.feed position l = .ok b) : Reads b ls b := by
  induction ls with
  | nil => exact .nil b
  | cons l ls ih =>
    rw [List.forall_mem_cons] at h
    exact .cons h.1 (ih h.2)

/-- Lexemes are read one list behind the other. -/
theorem Reads.append (h : Reads b ls c) (hs : Reads c ms d) : Reads b (ls ++ ms) d := by
  intro position
  rw [feedAll_append, h]
  exact hs (position + ls.length)

/-! ### Parts -/

/-- The builder when the part that it is reading has come to its end. -/
def settle (b : Builder) : Except SelectorError Builder :=
  match b.reading with
  | .between => .ok b
  | .tagName name => b.withTag name
  | .shorthand kind name => b.withShorthand kind name
  | _ => .error .unterminatedBracket

/-- At the end of the text the part, the step and the alternative come to their ends. -/
theorem finish_eq (b : Builder) :
    b.finish = do return (← (← b.settle).endAlternative).alternatives := by
  unfold finish settle
  cases b.reading <;> rfl

/-- A builder that reads no part is settled. -/
theorem settle_of_between (h : b.reading = .between) : b.settle = .ok b := by
  rw [settle, h]

/-- A lexeme that is no literal ends the part in front of it. -/
theorem feed_of_settle (h : b.settle = .ok c) (hl : l.kind ≠ .literal) (position : Nat) :
    b.feed position l = c.between position l := by
  unfold settle at h
  unfold feed
  cases hr : b.reading with
  | between =>
    rw [hr] at h
    rw [Except.ok.inj h]
  | tagName name =>
    rw [hr] at h
    dsimp only at h ⊢
    rw [if_neg hl, h]
    rfl
  | shorthand kind name =>
    rw [hr] at h
    dsimp only at h ⊢
    rw [if_neg hl, h]
    rfl
  | _ =>
    rw [hr] at h
    contradiction

private theorem reading_of_withTag {name : List Char} (h : b.withTag name = .ok c) :
    c.reading = .between := by
  unfold withTag at h
  dsimp only at h
  split at h
  · rw [← Except.ok.inj h]
  · split at h
    · rw [← Except.ok.inj h]
    · contradiction

private theorem reading_of_withShorthand {kind : Shorthand} {name : List Char}
    (h : b.withShorthand kind name = .ok c) : c.reading = .between := by
  unfold withShorthand at h
  split at h
  · contradiction
  · cases kind <;> rw [← Except.ok.inj h]

/-- A settled builder reads no part. -/
theorem reading_of_settle (h : b.settle = .ok c) : c.reading = .between := by
  unfold settle at h
  split at h
  · next hr => rwa [← Except.ok.inj h]
  · exact reading_of_withTag h
  · exact reading_of_withShorthand h
  · contradiction

/-- The end of a part completes no alternative. -/
theorem alternatives_of_settle (h : b.settle = .ok c) : c.alternatives = b.alternatives := by
  unfold settle at h
  split at h
  · rw [Except.ok.inj h]
  · unfold withTag at h
    dsimp only at h
    split at h
    · rw [← Except.ok.inj h]
    · split at h
      · rw [← Except.ok.inj h]
      · contradiction
  · unfold withShorthand at h
    split at h
    · contradiction
    · split at h <;> rw [← Except.ok.inj h]
  · contradiction

/-! ### Steps -/

/-- Nothing has been read of a step. -/
structure IsIdle (b : Builder) : Prop where
  tag : b.tag = none
  predicates : b.predicates = []
  classes : b.classes = []

/-- Only a step without classes has no predicate for them. -/
theorem eq_nil_of_classPredicates {classes : List String}
    (h : classPredicates classes = []) : classes = [] := by
  cases classes with
  | nil => rfl
  | cons c classes => cases classes <;> contradiction

/-- Without a step none comes to its end. -/
theorem IsIdle.endStep (h : b.IsIdle) : b.endStep = b := by
  unfold Builder.endStep
  dsimp only
  rw [h.tag, h.predicates, h.classes]
  rfl

/-- A step of which something has been read becomes the last of the alternative. -/
theorem endStep_of_not_isIdle (h : ¬ b.IsIdle) :
    b.endStep = { b with
      steps := b.steps ++ [⟨b.tag, b.pending, b.predicates ++ classPredicates b.classes⟩]
      tag := none
      predicates := []
      classes := []
      pending := .descendant } := by
  apply if_neg
  intro hempty
  rw [Bool.and_eq_true, Option.isNone_iff_eq_none, List.isEmpty_iff, List.append_eq_nil_iff]
    at hempty
  exact h ⟨hempty.1, hempty.2.1, eq_nil_of_classPredicates hempty.2.2⟩

/-- When a step has come to its end nothing has been read of the next. -/
theorem isIdle_endStep (b : Builder) : b.endStep.IsIdle := by
  by_cases h : b.IsIdle
  · rwa [h.endStep]
  · rw [endStep_of_not_isIdle h]
    exact ⟨rfl, rfl, rfl⟩

/-- A step ends once. -/
@[simp] theorem endStep_endStep (b : Builder) : b.endStep.endStep = b.endStep :=
  (isIdle_endStep b).endStep

/-- The end of a step begins no part. -/
@[simp] theorem reading_endStep (b : Builder) : b.endStep.reading = b.reading := by
  by_cases h : b.IsIdle
  · rw [h.endStep]
  · rw [endStep_of_not_isIdle h]

/-- When the part and the step have come to their ends, no part is being read. -/
theorem reading_endStep_of_settle (h : b.settle = .ok c) : c.endStep.reading = .between := by
  rw [reading_endStep, reading_of_settle h]

/-- The end of a step completes no alternative. -/
@[simp] theorem alternatives_endStep (b : Builder) :
    b.endStep.alternatives = b.alternatives := by
  by_cases h : b.IsIdle
  · rw [h.endStep]
  · rw [endStep_of_not_isIdle h]

/-- An alternative ends with a step, behind which no combinator waits for another. -/
theorem endAlternative_eq_ok_iff :
    b.endAlternative = .ok c ↔ b.endStep.pending = .descendant ∧ b.endStep.steps ≠ [] ∧
      c = { b.endStep with
        alternatives := b.alternatives ++ [b.endStep.steps]
        steps := [] } := by
  unfold endAlternative
  dsimp only
  cases b.endStep.pending with
  | child => simp
  | descendant =>
    cases hs : b.endStep.steps with
    | nil => simp
    | cons s steps => simp [eq_comm]

/-- What ends an alternative depends on the step only when it has come to its end. -/
theorem endAlternative_congr (h : b.endStep = c.endStep) : b.endAlternative = c.endAlternative := by
  unfold endAlternative
  rw [h]

/-! ### Gaps -/

variable {blanks blanks' : List Lexeme}

/-- Blanks behind the end of a step change nothing. -/
theorem reads_blanks_of_isIdle (hidle : b.IsIdle) (hreading : b.reading = .between)
    (hblanks : ∀ l ∈ blanks, l.kind = .space) : Reads b blanks b := by
  refine .of_same fun l hl position ↦ ?_
  rw [feed_of_settle (settle_of_between hreading) (by simp [hblanks l hl]), between, hblanks l hl,
    hidle.endStep]

/-- Blanks end the step. -/
theorem reads_blanks (h : b.settle = .ok c) (hne : blanks ≠ [])
    (hblanks : ∀ l ∈ blanks, l.kind = .space) : Reads b blanks c.endStep := by
  cases blanks with
  | nil => contradiction
  | cons l blanks =>
    rw [List.forall_mem_cons] at hblanks
    refine .cons (fun position ↦ ?_)
      (reads_blanks_of_isIdle (isIdle_endStep c) (reading_endStep_of_settle h) hblanks.2)
    rw [feed_of_settle h (by simp [hblanks.1]), between, hblanks.1]

private theorem exists_reads_blanks (h : b.settle = .ok c)
    (hblanks : ∀ l ∈ blanks, l.kind = .space) :
    ∃ d e, Reads b blanks d ∧ d.settle = .ok e ∧ e.endStep = c.endStep := by
  by_cases hne : blanks = []
  · subst hne
    exact ⟨b, c, .nil b, h, rfl⟩
  · exact ⟨c.endStep, c.endStep, reads_blanks h hne hblanks,
      settle_of_between (reading_endStep_of_settle h), endStep_endStep c⟩

/-- A `>` ends the step and waits for another, with any blanks around it. -/
theorem reads_child (h : b.settle = .ok c) (hpending : c.endStep.pending = .descendant)
    (hblanks : ∀ l ∈ blanks, l.kind = .space) (hblanks' : ∀ l ∈ blanks', l.kind = .space) :
    Reads b (blanks ++ ⟨.punctuation, '>'⟩ :: blanks') { c.endStep with pending := .child } := by
  obtain ⟨d, e, hd, he, hend⟩ := exists_reads_blanks h hblanks
  have hidle := isIdle_endStep c
  refine hd.append (.cons (fun position ↦ ?_) (reads_blanks_of_isIdle
    ⟨hidle.tag, hidle.predicates, hidle.classes⟩ (reading_endStep_of_settle h) hblanks'))
  rw [feed_of_settle he (by simp)]
  simp [between, hend, hpending]

/-- A comma ends the alternative, with any blanks around it. -/
theorem reads_comma (h : b.settle = .ok c) (hd : c.endAlternative = .ok d)
    (hblanks : ∀ l ∈ blanks, l.kind = .space) (hblanks' : ∀ l ∈ blanks', l.kind = .space) :
    Reads b (blanks ++ ⟨.punctuation, ','⟩ :: blanks') d := by
  obtain ⟨e, f, he, hf, hend⟩ := exists_reads_blanks h hblanks
  have hidle : d.IsIdle ∧ d.reading = .between := by
    rw [(endAlternative_eq_ok_iff.mp hd).2.2]
    have hstep := isIdle_endStep c
    exact ⟨⟨hstep.tag, hstep.predicates, hstep.classes⟩, reading_endStep_of_settle h⟩
  refine he.append (.cons (fun position ↦ ?_)
    (reads_blanks_of_isIdle hidle.1 hidle.2 hblanks'))
  rw [feed_of_settle hf (by simp), ← hd, ← endAlternative_congr hend]
  rfl

end Builder

end MarkupSelect
