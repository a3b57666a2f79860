import MarkupSelect.Proofs.Selector.Settled
import MarkupSelect.Proofs.Text.LetterCase

/-!
# Letter case and selectors

A text in lower case is the selector that the text is, with its values in lower case: the names are
so in either, and nothing else in a selector is a letter. The builder of the one goes along with the
builder of the other, lexeme by lexeme.
-/

namespace MarkupSelect

/-! ### Selectors in lower case -/

/-- A predicate with its value in lower case. -/
def Predicate.lower (p : Predicate) : Predicate := ⟨p.name, p.operator, p.value.toLower⟩

/-- A step with its values in lower case; its names are so already where it has been read. -/
def Step.lower (s : Step) : Step := ⟨s.tag, s.combinator, s.predicates.map Predicate.lower⟩

/-- A selector with its text and its values in lower case. -/
def Selector.lower (s : Selector) : Selector :=
  ⟨s.source.toLower, s.alternatives.map (·.map Step.lower)⟩

private theorem toLower_ofList (cs : List Char) :
    (String.ofList cs).toLower = String.ofList (cs.map Char.toLower) := by
  rw [← String.toList_inj, Text.toList_toLower, String.toList_ofList, String.toList_ofList]

private theorem lowered_toLower (name : List Char) :
    Builder.lowered (name.map Char.toLower) = Builder.lowered name := by
  rw [Builder.lowered, Builder.lowered, List.map_map]
  congr 2
  funext c
  exact Text.toLower_toLower c

private theorem toLower_intercalate (words : List String) :
    (" ".intercalate words).toLower = " ".intercalate (words.map String.toLower) := by
  have hlist : ∀ words : List (List Char), (" ".toList.intercalate words).map Char.toLower =
      " ".toList.intercalate (words.map (·.map Char.toLower)) := by
    intro words
    induction words with
    | nil => rfl
    | cons word words ih =>
      cases words with
      | nil => simp
      | cons next words =>
        rw [List.map_cons, List.map_cons, List.intercalate_cons_cons, List.intercalate_cons_cons,
          List.map_append, List.map_append, ih]
        rfl
  rw [← String.toList_inj, Text.toList_toLower, String.toList_intercalate, hlist,
    String.toList_intercalate, List.map_map, List.map_map]
  congr 2
  funext word
  exact String.toList_map.symm

/-! ### Lexemes -/

namespace Lexeme

/-- A lexeme in lower case. -/
def lower (l : Lexeme) : Lexeme := ⟨l.kind, l.char.toLower⟩

/-- A lexeme as it is read: punctuation is a reserved character. -/
def IsRead (l : Lexeme) : Prop := l.kind = .punctuation → CharKind.isReserved l.char = true

end Lexeme

namespace CharKind

private theorem isReserved_toLower (c : Char) : isReserved c.toLower = isReserved c :=
  Text.contains_toLower (by decide) c

private theorem ofChar_toLower (c : Char) : ofChar c.toLower = ofChar c := by
  rw [ofChar, ofChar, isReserved_toLower, Text.isBlank_toLower]

end CharKind

namespace Lexeme

private theorem isEscape_toLower (c d : Char) :
    (decide (c.toLower = '\\') && CharKind.isReserved d.toLower) =
      (decide (c = '\\') && CharKind.isReserved d) := by
  have hback : (c.toLower == '\\') = (c == '\\') := Text.toLower_beq (by decide) c
  rw [CharKind.isReserved_toLower, ← Bool.beq_eq_decide_eq, ← Bool.beq_eq_decide_eq, hback]

/-- The lexemes of a text in lower case are those of the text, in lower case. -/
theorem ofText_toLower (text : List Char) :
    ofText (text.map Char.toLower) = (ofText text).map lower := by
  fun_induction ofText text with
  | case1 => rfl
  | case2 c =>
    rw [List.map_cons, List.map_nil, ofText, CharKind.ofChar_toLower]
    rfl
  | case3 c d text h ih =>
    rw [Bool.and_eq_true, decide_eq_true_eq] at h
    rw [List.map_cons, List.map_cons, ofText, if_pos, ih]
    · rw [List.map_cons]
      rfl
    · rw [isEscape_toLower, Bool.and_eq_true, decide_eq_true_eq]
      exact h
  | case4 c d text h ih =>
    rw [List.map_cons] at ih
    rw [List.map_cons, List.map_cons, ofText, if_neg, ih, CharKind.ofChar_toLower]
    · rw [List.map_cons]
      rfl
    · rw [isEscape_toLower]
      exact h

private theorem isRead_ofChar (c : Char) : IsRead ⟨CharKind.ofChar c, c⟩ := by
  intro h
  dsimp only [CharKind.ofChar] at h
  split at h
  · next hreserved => exact hreserved
  · split at h
    · contradiction
    · contradiction

/-- The lexemes of a text are as they are read. -/
theorem isRead_of_mem_ofText {text : List Char} {l : Lexeme} (h : l ∈ ofText text) : l.IsRead := by
  fun_induction ofText text with
  | case1 => contradiction
  | case2 c =>
    rw [List.mem_singleton.mp h]
    exact isRead_ofChar c
  | case3 c d text _ ih =>
    rcases List.mem_cons.mp h with rfl | h
    · intro hkind
      contradiction
    · exact ih h
  | case4 c d text _ ih =>
    rcases List.mem_cons.mp h with rfl | h
    · exact isRead_ofChar c
    · exact ih h

variable {l : Lexeme}

/-- Punctuation has no letter case. -/
theorem IsRead.lower_eq (h : l.IsRead) (hkind : l.kind = .punctuation) : l.lower = l := by
  have hall : ∀ c ∈ CharKind.reserved, c.toLower = c := List.all_iff_forall_prop.mp (by decide)
  rw [lower, hall l.char (List.contains_iff_mem.mp (h hkind))]

/-- A lexeme that is a certain punctuation is punctuation. -/
theorem kind_of_isPunctuation {c : Char} (h : l.isPunctuation c = true) :
    l.kind = .punctuation := by
  rw [isPunctuation, Bool.and_eq_true, beq_iff_eq] at h
  exact h.1

/-- A lexeme is the same punctuation in lower case. -/
theorem IsRead.isPunctuation_lower (h : l.IsRead) (c : Char) :
    l.lower.isPunctuation c = l.isPunctuation c := by
  by_cases hkind : l.kind = .punctuation
  · rw [h.lower_eq hkind]
  · rw [isPunctuation, isPunctuation, lower, beq_eq_false_iff_ne.mpr hkind, Bool.false_and,
      Bool.false_and]

end Lexeme

/-! ### Results -/

/-- An error with the character that it is about in lower case. -/
def SelectorError.lower : SelectorError → SelectorError
  | leadingPunctuation char => leadingPunctuation char.toLower
  | trailingPunctuation char => trailingPunctuation char.toLower
  | unexpectedToken char position => unexpectedToken char.toLower position
  | e => e

/-- A result in lower case, given what that is for all that may come out. -/
def lowerResult {α β : Type} (f : α → β) : Except SelectorError α → Except SelectorError β
  | .ok a => .ok (f a)
  | .error e => .error e.lower

private theorem lowerResult_bind {α β γ δ : Type} {f : α → β} {g : γ → δ}
    {next : α → Except SelectorError γ} {next' : β → Except SelectorError δ}
    (h : ∀ a, next' (f a) = lowerResult g (next a)) (result : Except SelectorError α) :
    lowerResult f result >>= next' = lowerResult g (result >>= next) := by
  cases result with
  | ok a => exact h a
  | error e => rfl

/-! ### Builders in lower case -/

/-- A part in lower case; an operator has no letters. -/
def Reading.lower : Reading → Reading
  | .between => .between
  | .tagName name => .tagName (name.map Char.toLower)
  | .shorthand kind name => .shorthand kind (name.map Char.toLower)
  | .attributeName name => .attributeName (name.map Char.toLower)
  | .operator name symbol => .operator (name.map Char.toLower) symbol
  | .value name symbol quote chars =>
    .value (name.map Char.toLower) symbol quote (chars.map Char.toLower)
  | .afterValue name symbol chars =>
    .afterValue (name.map Char.toLower) symbol (chars.map Char.toLower)

namespace Builder

/-- A builder in lower case. -/
def lower (b : Builder) : Builder :=
  { b with
    reading := b.reading.lower
    alternatives := b.alternatives.map (·.map Step.lower)
    steps := b.steps.map Step.lower
    predicates := b.predicates.map Predicate.lower
    classes := b.classes.map String.toLower }

variable (b : Builder)

private theorem withTag_lower (name : List Char) :
    b.lower.withTag (name.map Char.toLower) = lowerResult lower (b.withTag name) := by
  have hsame : b.lower.tag = b.tag := rfl
  unfold withTag
  rw [lowered_toLower, hsame]
  dsimp only
  split
  · rfl
  · split
    · rfl
    · rfl

private theorem withShorthand_lower (kind : Shorthand) (name : List Char) :
    b.lower.withShorthand kind (name.map Char.toLower) =
      lowerResult lower (b.withShorthand kind name) := by
  unfold withShorthand
  rw [List.isEmpty_map]
  split
  · rfl
  · cases kind with
    | identifier =>
      simp [lower, lowerResult, Reading.lower, Predicate.lower, toLower_ofList]
    | className => simp [lower, lowerResult, Reading.lower, toLower_ofList]

private theorem operatorOf_lower (symbol : List Char) :
    operatorOf symbol = lowerResult id (operatorOf symbol) := by
  unfold operatorOf
  split
  · rfl
  · split
    · rfl
    · rfl

private theorem withPredicate_lower (name symbol value : List Char) :
    b.lower.withPredicate (name.map Char.toLower) symbol (value.map Char.toLower) =
      lowerResult lower (b.withPredicate name symbol value) := by
  unfold withPredicate
  rw [lowered_toLower]
  refine (congrArg (· >>= _) (operatorOf_lower symbol)).trans (lowerResult_bind ?_ _)
  intro operator
  refine congrArg Except.ok ?_
  simp [lower, Reading.lower, Predicate.lower, toLower_ofList]

/-! ### Ends in lower case -/

private theorem classPredicates_lower (classes : List String) :
    classPredicates (classes.map String.toLower) =
      (classPredicates classes).map Predicate.lower := by
  match classes with
  | [] => rfl
  | [c] => rfl
  | c :: d :: classes =>
    exact congrArg (fun joined ↦ [Predicate.mk "class" .allWords joined])
      (toLower_intercalate (c :: d :: classes)).symm

private theorem endStep_lower : b.lower.endStep = b.endStep.lower := by
  have hpredicates : b.lower.predicates ++ classPredicates b.lower.classes =
      (b.predicates ++ classPredicates b.classes).map Predicate.lower := by
    rw [List.map_append, ← classPredicates_lower]
    rfl
  have htag : b.lower.tag = b.tag := rfl
  unfold endStep
  rw [hpredicates, htag]
  dsimp only
  rw [List.isEmpty_map]
  split
  · rfl
  · simp [lower, Step.lower]

private theorem endAlternative_lower :
    b.lower.endAlternative = lowerResult lower b.endAlternative := by
  have hpending : b.endStep.lower.pending = b.endStep.pending := rfl
  have hsteps : b.endStep.lower.steps.isEmpty = b.endStep.steps.isEmpty := List.isEmpty_map
  unfold endAlternative
  rw [endStep_lower]
  dsimp only
  rw [hpending, hsteps]
  split
  · rfl
  · split
    · rfl
    · simp [lower, lowerResult]

/-! ### Lexemes in lower case -/

variable {l : Lexeme} (hl : l.IsRead) (position : Nat)

include hl

private theorem between_lower :
    b.lower.between position l.lower = lowerResult lower (b.between position l) := by
  have hkind : l.lower.kind = l.kind := rfl
  unfold between
  rw [hkind]
  cases hl' : l.kind with
  | literal => rfl
  | space => exact congrArg Except.ok b.endStep_lower
  | punctuation =>
    have herror : (SelectorError.unexpectedToken l.char position).lower =
        .unexpectedToken l.char position :=
      congrArg (SelectorError.unexpectedToken · position) (congrArg Lexeme.char (hl.lower_eq hl'))
    have hpending : b.endStep.lower.pending = b.endStep.pending := rfl
    dsimp only
    rw [hl.lower_eq hl', endStep_lower, endAlternative_lower, hpending]
    split
    · rfl
    split
    · rfl
    split
    · rfl
    split
    · split
      · rw [lowerResult, herror]
      · rfl
    split
    · rfl
    · rw [lowerResult, herror]

private theorem inOperator_lower (name symbol : List Char) :
    b.lower.inOperator position l.lower (name.map Char.toLower) symbol =
      lowerResult lower (b.inOperator position l name symbol) := by
  have hkind : l.lower.kind = l.kind := rfl
  have hpunctuation :
      (decide (l.lower.kind = .punctuation) && operatorChars.contains l.lower.char) =
        (decide (l.kind = .punctuation) && operatorChars.contains l.char) := by
    by_cases h : l.kind = .punctuation
    · rw [hl.lower_eq h]
    · rw [hkind, decide_eq_false h, Bool.false_and, Bool.false_and]
  unfold inOperator
  rw [hpunctuation, hkind, hl.isPunctuation_lower, hl.isPunctuation_lower, hl.isPunctuation_lower]
  split
  · rfl
  split
  · exact b.withPredicate_lower name symbol []
  split
  · -- Nothing but punctuation becomes part of an operator, and that is the same in lower case.
    next h =>
    rw [Bool.and_eq_true, decide_eq_true_eq] at h
    rw [hl.lower_eq h.1]
    rfl
  split
  · rfl
  split
  · next h =>
    have hquote : l.kind = .punctuation :=
      (Bool.or_eq_true_iff.mp h).elim Lexeme.kind_of_isPunctuation Lexeme.kind_of_isPunctuation
    rw [hl.lower_eq hquote]
    rfl
  · rfl

private theorem inAttributeName_lower (name : List Char) :
    b.lower.inAttributeName position l.lower (name.map Char.toLower) =
      lowerResult lower (b.inAttributeName position l name) := by
  have hkind : l.lower.kind = l.kind := rfl
  unfold inAttributeName
  rw [hkind, List.isEmpty_map]
  cases l.kind with
  | literal => simp [lower, lowerResult, Reading.lower, Lexeme.lower]
  | space =>
    dsimp only
    split
    · rfl
    · rfl
  | punctuation =>
    dsimp only
    split
    · rfl
    · exact b.inOperator_lower hl position name []

private theorem inValue_lower (name symbol : List Char) (quote : Option Char) (value : List Char) :
    b.lower.inValue l.lower (name.map Char.toLower) symbol quote (value.map Char.toLower) =
      lowerResult lower (b.inValue l name symbol quote value) := by
  have hkind : l.lower.kind = l.kind := rfl
  have hnext : (value.map Char.toLower) ++ [l.lower.char] =
      (value ++ [l.char]).map Char.toLower := by
    rw [List.map_append]
    rfl
  unfold inValue
  rw [hkind, hnext]
  cases quote with
  | some q =>
    dsimp only
    rw [hl.isPunctuation_lower]
    split
    · rfl
    · rfl
  | none =>
    dsimp only
    rw [hl.isPunctuation_lower]
    split
    · rfl
    split
    · exact b.withPredicate_lower name symbol value
    · rfl

/-- A lexeme in lower case makes of a builder in lower case what the lexeme makes of the builder. -/
theorem feed_lower : b.lower.feed position l.lower = lowerResult lower (b.feed position l) := by
  have hkind : l.lower.kind = l.kind := rfl
  have hreading : b.lower.reading = b.reading.lower := rfl
  have hbetween := fun c : Builder ↦ c.between_lower hl position
  unfold feed
  rw [hreading]
  cases hb : b.reading with
  | between => exact hbetween b
  | tagName name =>
    dsimp only [Reading.lower]
    rw [hkind]
    split
    · simp [lower, lowerResult, Reading.lower, Lexeme.lower]
    · rw [withTag_lower, lowerResult_bind hbetween]
  | shorthand kind name =>
    dsimp only [Reading.lower]
    rw [hkind]
    split
    · simp [lower, lowerResult, Reading.lower, Lexeme.lower]
    · rw [withShorthand_lower, lowerResult_bind hbetween]
  | attributeName name => exact b.inAttributeName_lower hl position name
  | operator name symbol => exact b.inOperator_lower hl position name symbol
  | value name symbol quote value => exact b.inValue_lower hl name symbol quote value
  | afterValue name symbol value =>
    dsimp only [Reading.lower]
    rw [hkind, hl.isPunctuation_lower]
    split
    · rfl
    split
    · exact b.withPredicate_lower name symbol value
    · rfl

omit hl

/-- Lexemes in lower case make of a builder in lower case what the lexemes make of the builder. -/
theorem feedAll_lower {lexemes : List Lexeme} (h : ∀ l ∈ lexemes, l.IsRead) :
    b.lower.feedAll position (lexemes.map Lexeme.lower) =
      lowerResult lower (b.feedAll position lexemes) := by
  induction lexemes generalizing b position with
  | nil => rfl
  | cons l lexemes ih =>
    rw [List.forall_mem_cons] at h
    rw [List.map_cons, feedAll, feedAll, feed_lower b h.1]
    exact lowerResult_bind (fun c ↦ ih c (position + 1) h.2) _

private theorem settle_lower : b.lower.settle = lowerResult lower b.settle := by
  have hreading : b.lower.reading = b.reading.lower := rfl
  unfold settle
  rw [hreading]
  cases b.reading with
  | tagName name => exact b.withTag_lower name
  | shorthand kind name => exact b.withShorthand_lower kind name
  | _ => rfl

/-- A builder in lower case comes to its end as the builder does. -/
theorem finish_lower : b.lower.finish = lowerResult (·.map (·.map Step.lower)) b.finish := by
  rw [finish_eq, finish_eq, settle_lower]
  refine lowerResult_bind (fun c ↦ ?_) _
  rw [endAlternative_lower]
  exact lowerResult_bind (f := lower) (fun _ ↦ rfl) _

end Builder

/-! ### Texts in lower case -/

namespace Selector

private theorem trim_toLower (text : List Char) :
    Text.trim (text.map Char.toLower) = (Text.trim text).map Char.toLower := by
  have hblank : Text.isBlank ∘ Char.toLower = Text.isBlank := funext Text.isBlank_toLower
  rw [Text.trim, Text.trim, Text.trimEnd, Text.trimEnd, Text.trimStart, Text.trimStart,
    List.dropWhile_map, hblank, ← List.map_reverse, List.dropWhile_map, hblank, List.map_reverse]

private theorem edgeError?_toLower (text : List Char) :
    edgeError? (text.map Char.toLower) = (edgeError? text).map SelectorError.lower := by
  unfold edgeError?
  rw [List.head?_map, List.getLast?_map]
  cases text.head? with
  | none => rfl
  | some first =>
    cases text.getLast? with
    | none => rfl
    | some last =>
      have hend : (last.toLower != ']') = (last != ']') :=
        congrArg (! ·) (Text.toLower_beq (by decide) last)
      have hopen : ['#', '.', '['].contains first.toLower = ['#', '.', '['].contains first :=
        Text.contains_toLower (by decide) first
      dsimp only [Option.map_some]
      rw [CharKind.isReserved_toLower, CharKind.isReserved_toLower, hend, hopen]
      split
      · rfl
      · split
        · rfl
        · rfl

private theorem alternativesOf_toLower (text : List Char) :
    alternativesOf (text.map Char.toLower) =
      lowerResult (·.map (·.map Step.lower)) (alternativesOf text) := by
  rw [alternativesOf, alternativesOf, Lexeme.ofText_toLower]
  refine (congrArg (· >>= _) (Builder.feedAll_lower .empty 0 fun l hl ↦
    Lexeme.isRead_of_mem_ofText hl)).trans ?_
  exact lowerResult_bind Builder.finish_lower _

/-- A text in lower case compiles to what the text compiles to, in lower case. -/
theorem compile_toLower (text : String) :
    compile text.toLower = lowerResult lower (compile text) := by
  unfold compile
  rw [Text.toList_toLower, trim_toLower]
  dsimp only
  rw [edgeError?_toLower, alternativesOf_toLower]
  cases edgeError? (Text.trim text.toList) with
  | some e => rfl
  | none =>
    refine lowerResult_bind (fun alternatives ↦ ?_) _
    rw [← toLower_ofList]
    rfl

end Selector

end MarkupSelect
