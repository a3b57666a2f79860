import Mathlib.Logic.Relation
import MarkupSelect.Proofs.Selector.Ends
import MarkupSelect.Proofs.Text.LetterCase

/-!
# What a lexeme does to a builder

A lexeme lets the part that is being read go on, closes a bracket, or stands between two parts: then
it begins the next part, ends the step or ends the alternative. So a builder changes in a few ways
only, and what all of them keep is kept by every run.
-/

namespace MarkupSelect

/-! ### Names -/

/-- The name of a tag or of an attribute as a selector has it: there is something of it, without
blanks and in lower case. -/
structure Selector.IsName (name : String) : Prop where
  ne_nil : name.toList ≠ []
  notBlank : ∀ c ∈ name.toList, Text.isBlank c = false
  notUpper : ∀ c ∈ name.toList, c.isUpper = false

/-- A predicate as it is read: it has a name, and no value if it asks for presence. -/
structure Predicate.IsSound (p : Predicate) : Prop where
  name : Selector.IsName p.name
  value : p.operator = .present → p.value = ""

namespace Reading

/-- A name that has been read: there is something of it, without blanks. -/
structure IsName (name : List Char) : Prop where
  ne_nil : name ≠ []
  notBlank : ∀ c ∈ name, Text.isBlank c = false

variable {name : List Char} {c : Char}

/-- A name that goes on with one more character. -/
theorem isName_concat (h : ∀ c ∈ name, Text.isBlank c = false) (hc : Text.isBlank c = false) :
    IsName (name ++ [c]) := by
  refine ⟨List.concat_ne_nil _ _, ?_⟩
  rw [List.forall_mem_append]
  exact ⟨h, List.forall_mem_singleton.mpr hc⟩

/-- A name that has been read is put in lower case. -/
theorem IsName.lowered (h : IsName name) : Selector.IsName (Builder.lowered name) := by
  have hchars : (Builder.lowered name).toList = name.map Char.toLower := String.toList_ofList
  constructor
  · rw [hchars]
    exact mt List.map_eq_nil_iff.mp h.ne_nil
  · rw [hchars, List.forall_mem_map]
    intro c hc
    rw [Text.isBlank_toLower]
    exact h.notBlank c hc
  · rw [hchars, List.forall_mem_map]
    exact fun c _ ↦ Text.isUpper_toLower c

/-- What is being read holds names as they are read, and a value has an operator. -/
def IsSound : Reading → Prop
  | .between => True
  | .tagName name => IsName name
  | .shorthand _ _ => True
  | .attributeName name => ∀ c ∈ name, Text.isBlank c = false
  | .operator name _ => IsName name
  | .value name symbol _ _ => IsName name ∧ symbol ≠ []
  | .afterValue name symbol _ => IsName name ∧ symbol ≠ []

end Reading

namespace Lexeme

/-- A literal is no blank. -/
def IsSound (l : Lexeme) : Prop := l.kind = .literal → Text.isBlank l.char = false

private theorem isSound_ofChar (c : Char) : IsSound ⟨CharKind.ofChar c, c⟩ := by
  intro h
  dsimp only [CharKind.ofChar] at h
  split at h
  · contradiction
  · split at h
    · contradiction
    · next hblank => simpa using hblank

/-- The lexemes of a text are sound. -/
theorem isSound_of_mem_ofText {text : List Char} {l : Lexeme} (h : l ∈ ofText text) :
    l.IsSound := by
  fun_induction ofText text with
  | case1 => contradiction
  | case2 c =>
    rw [List.mem_singleton.mp h]
    exact isSound_ofChar c
  | case3 c d text hescape ih =>
    rcases List.mem_cons.mp h with rfl | h
    · intro _
      rw [Bool.and_eq_true] at hescape
      rw [← Bool.not_eq_true]
      intro hblank
      rw [CharKind.isReserved_of_isBlank hblank] at hescape
      exact Bool.false_ne_true hescape.2
    · exact ih h
  | case4 c d text _ ih =>
    rcases List.mem_cons.mp h with rfl | h
    · exact isSound_ofChar c
    · exact ih h

end Lexeme

namespace Builder

variable {b c d : Builder} {l : Lexeme} {position : Nat} {name symbol value : List Char}

/-! ### One lexeme -/

/-- What becomes of a builder that is fed a lexeme: the part that is being read goes on, a bracket
is closed, or the part has come to its end and the lexeme is read behind it. -/
inductive Fed (l : Lexeme) (position : Nat) (b : Builder) : Builder → Prop
  | read {reading : Reading} (h : b.reading.IsSound → l.IsSound → reading.IsSound) :
    Fed l position b { b with reading := reading }
  | closed {p : Predicate} (h : b.reading.IsSound → p.IsSound) :
    Fed l position b { b with reading := .between, predicates := b.predicates ++ [p] }
  | settled {c d : Builder} (hc : b.settle = .ok c) (hd : c.between position l = .ok d) :
    Fed l position b d

private theorem eq_nil_of_operatorOf (h : operatorOf symbol = .ok .present) : symbol = [] := by
  unfold operatorOf at h
  split at h
  · next hempty => exact List.isEmpty_iff.mp hempty
  · split at h
    · next operator hoperator =>
      rw [Except.ok.inj h, Operator.ofSymbol?] at hoperator
      split at hoperator
      · contradiction
      · have hsymbol := List.find?_some hoperator
        rw [beq_iff_eq] at hsymbol
        exact String.ofList_eq_empty_iff.mp hsymbol.symm
    · contradiction

private theorem fed_of_withPredicate
    (hread : b.reading.IsSound → Reading.IsName name ∧ (symbol = [] → value = []))
    (h : b.withPredicate name symbol value = .ok c) : Fed l position b c := by
  unfold withPredicate at h
  obtain ⟨operator, hoperator, hc⟩ := exists_of_bind h
  rw [← Except.ok.inj hc]
  refine .closed fun hsound ↦ ?_
  obtain ⟨hname, hvalue⟩ := hread hsound
  refine ⟨hname.lowered, ?_⟩
  rintro rfl
  rw [hvalue (eq_nil_of_operatorOf hoperator)]

private theorem fed_of_inOperator
    (hname : b.reading.IsSound → Reading.IsName name)
    (h : b.inOperator position l name symbol = .ok c) : Fed l position b c := by
  unfold inOperator at h
  split at h
  · rw [← Except.ok.inj h]
    exact .read fun hsound _ ↦ hname hsound
  split at h
  · exact fed_of_withPredicate (fun hsound ↦ ⟨hname hsound, fun _ ↦ rfl⟩) h
  split at h
  · rw [← Except.ok.inj h]
    exact .read fun hsound _ ↦ hname hsound
  split at h
  · contradiction
  · next hsymbol =>
    rw [List.isEmpty_iff] at hsymbol
    split at h
    · rw [← Except.ok.inj h]
      exact .read fun hsound _ ↦ ⟨hname hsound, hsymbol⟩
    · rw [← Except.ok.inj h]
      exact .read fun hsound _ ↦ ⟨hname hsound, hsymbol⟩

private theorem fed_of_inAttributeName (hreading : b.reading = .attributeName name)
    (h : b.inAttributeName position l name = .ok c) : Fed l position b c := by
  unfold inAttributeName at h
  split at h
  · next hkind =>
    rw [← Except.ok.inj h]
    refine .read fun hsound hl ↦ ?_
    rw [hreading] at hsound
    exact (Reading.isName_concat hsound (hl hkind)).notBlank
  · rw [← Except.ok.inj h]
    refine .read fun hsound _ ↦ ?_
    rw [hreading] at hsound
    split
    · exact List.forall_mem_nil _
    · next hne => exact ⟨mt List.isEmpty_iff.mpr hne, hsound⟩
  · split at h
    · contradiction
    · next hne =>
      refine fed_of_inOperator (fun hsound ↦ ?_) h
      rw [hreading] at hsound
      exact ⟨mt List.isEmpty_iff.mpr hne, hsound⟩

private theorem fed_of_inValue {quote : Option Char}
    (hread : b.reading.IsSound → Reading.IsName name ∧ symbol ≠ [])
    (h : b.inValue l name symbol quote value = .ok c) : Fed l position b c := by
  unfold inValue at h
  cases quote with
  | some q =>
    dsimp only at h
    split at h
    · rw [← Except.ok.inj h]
      exact .read fun hsound _ ↦ hread hsound
    · rw [← Except.ok.inj h]
      exact .read fun hsound _ ↦ hread hsound
  | none =>
    dsimp only at h
    split at h
    · rw [← Except.ok.inj h]
      exact .read fun hsound _ ↦ hread hsound
    split at h
    · exact fed_of_withPredicate
        (fun hsound ↦ ⟨(hread hsound).1, fun hsymbol ↦ absurd hsymbol (hread hsound).2⟩) h
    · rw [← Except.ok.inj h]
      exact .read fun hsound _ ↦ hread hsound

/-- A lexeme goes on with a part, closes a bracket or finds the part at its end. -/
theorem fed_of_feed (h : b.feed position l = .ok c) : Fed l position b c := by
  unfold feed at h
  cases hreading : b.reading with
  | between =>
    rw [hreading] at h
    exact .settled (settle_of_between hreading) h
  | tagName name =>
    rw [hreading] at h
    dsimp only at h
    split at h
    · next hkind =>
      rw [← Except.ok.inj h]
      refine .read fun hsound hl ↦ ?_
      rw [hreading] at hsound
      exact Reading.isName_concat hsound.notBlank (hl hkind)
    · obtain ⟨d, hd, hc⟩ := exists_of_bind h
      refine .settled ?_ hc
      rw [settle, hreading]
      exact hd
  | shorthand kind name =>
    rw [hreading] at h
    dsimp only at h
    split at h
    · rw [← Except.ok.inj h]
      exact .read fun _ _ ↦ trivial
    · obtain ⟨d, hd, hc⟩ := exists_of_bind h
      refine .settled ?_ hc
      rw [settle, hreading]
      exact hd
  | attributeName name =>
    rw [hreading] at h
    exact fed_of_inAttributeName hreading h
  | operator name symbol =>
    rw [hreading] at h
    refine fed_of_inOperator (fun hsound ↦ ?_) h
    rwa [hreading] at hsound
  | value name symbol quote value =>
    rw [hreading] at h
    refine fed_of_inValue (fun hsound ↦ ?_) h
    rwa [hreading] at hsound
  | afterValue name symbol value =>
    have hread (hsound : b.reading.IsSound) : Reading.IsName name ∧ symbol ≠ [] := by
      rwa [hreading] at hsound
    rw [hreading] at h
    dsimp only at h
    split at h
    · rw [← Except.ok.inj h]
      exact .read fun hsound _ ↦ hsound
    split at h
    · exact fed_of_withPredicate
        (fun hsound ↦ ⟨(hread hsound).1, fun hsymbol ↦ absurd hsymbol (hread hsound).2⟩) h
    · contradiction

/-- What a lexeme does between two parts: it begins the next part, ends the step, makes a child of
the next step, ends the alternative, or has no meaning there. -/
inductive Role (l : Lexeme) : Prop
  | begins (reading : Reading) (hne : reading ≠ .between)
    (hopens : l.kind = .literal ∨ l.kind = .punctuation ∧ l.char ∈ ['#', '.', '['])
    (hsound : l.IsSound → reading.IsSound)
    (h : ∀ b position, between b position l = .ok { b with reading := reading })
  | space (h : l.kind = .space)
  | child (h : l = ⟨.punctuation, '>'⟩)
  | comma (h : l = ⟨.punctuation, ','⟩)
  | stray (h : ∀ b position, between b position l = .error (.unexpectedToken l.char position))

/-- Every lexeme has a role between two parts. -/
theorem role (l : Lexeme) : Role l := by
  obtain ⟨kind, char⟩ := l
  cases kind with
  | literal =>
    exact .begins (.tagName [char]) nofun (.inl rfl)
      (fun hl ↦ Reading.isName_concat (List.forall_mem_nil _) (hl rfl)) fun _ _ ↦ rfl
  | space => exact .space rfl
  | punctuation =>
    by_cases hid : char = '#'
    · subst hid
      exact .begins (.shorthand .identifier []) nofun (.inr ⟨rfl, by decide⟩)
        (fun _ ↦ trivial) fun _ _ ↦ rfl
    by_cases hclass : char = '.'
    · subst hclass
      exact .begins (.shorthand .className []) nofun (.inr ⟨rfl, by decide⟩)
        (fun _ ↦ trivial) fun _ _ ↦ rfl
    by_cases hbracket : char = '['
    · subst hbracket
      exact .begins (.attributeName []) nofun (.inr ⟨rfl, by decide⟩)
        (fun _ ↦ List.forall_mem_nil _) fun _ _ ↦ rfl
    by_cases hchild : char = '>'
    · exact .child (congrArg _ hchild)
    by_cases hcomma : char = ','
    · exact .comma (congrArg _ hcomma)
    · refine .stray fun b position ↦ ?_
      rw [between, if_neg hid, if_neg hclass, if_neg hbracket, if_neg hchild, if_neg hcomma]

/-- Between two parts a lexeme begins the next one, ends the step, makes a child of the next step or
ends the alternative. -/
theorem between_cases (h : b.between position l = .ok c) :
    (∃ reading : Reading, (l.IsSound → reading.IsSound) ∧ c = { b with reading := reading }) ∨
      c = b.endStep ∨ c = { b.endStep with pending := .child } ∨
      l = ⟨.punctuation, ','⟩ ∧ b.endAlternative = .ok c := by
  cases role l with
  | begins reading _ _ hsound hbegins =>
    rw [hbegins] at h
    exact .inl ⟨reading, hsound, (Except.ok.inj h).symm⟩
  | space hspace =>
    rw [between, hspace] at h
    exact .inr (.inl (Except.ok.inj h).symm)
  | child hchild =>
    rw [hchild] at h
    change (if _ then _ else _) = _ at h
    split at h
    · contradiction
    · exact .inr (.inr (.inl (Except.ok.inj h).symm))
  | comma hcomma =>
    rw [hcomma] at h
    exact .inr (.inr (.inr ⟨hcomma, h⟩))
  | stray hstray =>
    rw [hstray] at h
    contradiction

/-- A lexeme completes no alternative, unless it is a comma that ends one. -/
theorem alternatives_of_feed (h : b.feed position l = .ok c) :
    c.alternatives = b.alternatives ∨
      l = ⟨.punctuation, ','⟩ ∧ ∃ d, b.settle = .ok d ∧ d.endAlternative = .ok c := by
  cases fed_of_feed h with
  | read => exact .inl rfl
  | closed => exact .inl rfl
  | @settled d _ hd hc =>
    have hsettle := alternatives_of_settle hd
    rcases between_cases hc with ⟨reading, -, rfl⟩ | rfl | rfl | ⟨hl, hend⟩
    · exact .inl hsettle
    · exact .inl ((alternatives_endStep d).trans hsettle)
    · exact .inl ((alternatives_endStep d).trans hsettle)
    · exact .inr ⟨hl, d, hd, hend⟩

/-! ### Moves -/

/-- The ways in which a builder changes: a part begins or goes on, the step gets its tag name, one
more predicate or one more class, it ends, the next step is to be a child, the alternative ends. -/
inductive Move : Builder → Builder → Prop
  | read (b : Builder) {reading : Reading} (h : reading.IsSound) :
    Move b { b with reading := reading }
  | tag (b : Builder) {name : List Char} (h : Reading.IsName name) :
    Move b { b with reading := .between, tag := some (lowered name) }
  | predicate (b : Builder) {p : Predicate} (h : p.IsSound) :
    Move b { b with reading := .between, predicates := b.predicates ++ [p] }
  | className (b : Builder) (name : String) :
    Move b { b with reading := .between, classes := b.classes ++ [name] }
  | step (b : Builder) : Move b b.endStep
  | child (b : Builder) : Move b { b with pending := .child }
  | alternative {b c : Builder} (h : b.endAlternative = .ok c) : Move b c

/-- A builder becomes another one in some moves. -/
abbrev Moves : Builder → Builder → Prop := Relation.ReflTransGen Move

private theorem isName_identifier : Selector.IsName "id" :=
  ⟨by decide, List.all_iff_forall_prop.mp (by decide), List.all_iff_forall_prop.mp (by decide)⟩

private theorem moves_of_withTag (hname : Reading.IsName name) (h : b.withTag name = .ok c) :
    Moves b c := by
  unfold withTag at h
  dsimp only at h
  split at h
  · rw [← Except.ok.inj h]
    exact .single (.tag b hname)
  · split at h
    · rw [← Except.ok.inj h]
      exact .single (.read b trivial)
    · contradiction

private theorem moves_of_withShorthand {kind : Shorthand}
    (h : b.withShorthand kind name = .ok c) : Moves b c := by
  unfold withShorthand at h
  split at h
  · contradiction
  · cases kind with
    | identifier =>
      rw [← Except.ok.inj h]
      exact .single (.predicate b ⟨isName_identifier, by simp⟩)
    | className =>
      rw [← Except.ok.inj h]
      exact .single (.className b _)

/-- A part comes to its end in a move. -/
theorem moves_of_settle (hb : b.reading.IsSound) (h : b.settle = .ok c) : Moves b c := by
  unfold settle at h
  split at h
  · rw [Except.ok.inj h]
  · next name hreading =>
    rw [hreading] at hb
    exact moves_of_withTag hb h
  · exact moves_of_withShorthand h
  · contradiction

private theorem moves_of_between (hl : l.IsSound) (h : b.between position l = .ok c) :
    Moves b c := by
  rcases between_cases h with ⟨reading, hreading, rfl⟩ | rfl | rfl | ⟨-, hend⟩
  · exact .single (.read b (hreading hl))
  · exact .single (.step b)
  · exact .tail (.single (.step b)) (.child b.endStep)
  · exact .single (.alternative hend)

/-- A lexeme makes moves. -/
theorem moves_of_feed (hb : b.reading.IsSound) (hl : l.IsSound)
    (h : b.feed position l = .ok c) : Moves b c := by
  cases fed_of_feed h with
  | read hreading => exact .single (.read b (hreading hb hl))
  | closed hp => exact .single (.predicate b (hp hb))
  | settled hd hc => exact (moves_of_settle hb hd).trans (moves_of_between hl hc)

/-- What is being read is sound after a move. -/
theorem Move.isSound_reading (h : Move b c) (hb : b.reading.IsSound) : c.reading.IsSound := by
  cases h with
  | read h => exact h
  | step => rwa [reading_endStep]
  | child => exact hb
  | alternative h =>
    rw [(endAlternative_eq_ok_iff.mp h).2.2]
    rwa [← reading_endStep b] at hb
  | _ => trivial

/-- What every move keeps is kept by moves. -/
theorem Moves.keep {P : Builder → Prop} (hP : ∀ {b c}, Move b c → P b → P c) (h : Moves b c)
    (hb : P b) : P c := by
  induction h with
  | refl => exact hb
  | tail _ hmove ih => exact hP hmove ih

/-- Lexemes make moves. -/
theorem moves_of_feedAll {ls : List Lexeme} (hb : b.reading.IsSound) (hls : ∀ l ∈ ls, l.IsSound)
    (h : b.feedAll position ls = .ok c) : Moves b c := by
  induction ls generalizing b position with
  | nil => rw [Except.ok.inj h]
  | cons l ls ih =>
    rw [List.forall_mem_cons] at hls
    obtain ⟨d, hd, hc⟩ := exists_of_bind h
    have hmoves := moves_of_feed hb hls.1 hd
    exact hmoves.trans (ih (hmoves.keep Move.isSound_reading hb) hls.2 hc)

end Builder

end MarkupSelect
