import MarkupSelect.Condition.Basic
import MarkupSelect.Proofs.Text.Search

/-!
# Comparisons that follow from others

What one comparison of an attribute value says about the others: equality implies every comparison
that the same text meets, a beginning and an end are parts, and so are common words. Six comparisons
have an opposite, and of an attribute that is present exactly one of the two holds.
-/

namespace MarkupSelect

/-! ### Words and parts -/

namespace Bytes

private theorem exists_pieces_cons (text : Bytes) :
    ∃ first rest, pieces text = first :: rest ∧ first <+: text ∧
      ∀ piece ∈ rest, piece <:+: text := by
  induction text with
  | nil => exact ⟨[], [], rfl, List.prefix_rfl, List.forall_mem_nil _⟩
  | cons b text ih =>
    obtain ⟨first, rest, hpieces, hfirst, hrest⟩ := ih
    have hbehind : ∀ piece ∈ rest, piece <:+: b :: text := fun piece h ↦
      List.infix_cons (hrest piece h)
    rw [pieces, hpieces]
    split
    · refine ⟨[], first :: rest, rfl, List.nil_prefix, ?_⟩
      exact List.forall_mem_cons.mpr ⟨List.infix_cons hfirst.isInfix, hbehind⟩
    · exact ⟨b :: first, rest, rfl, List.cons_prefix_cons.mpr ⟨rfl, hfirst⟩, hbehind⟩

/-- A word is a part of the text. -/
theorem isInfix_of_mem_words {word text : Bytes} (h : word ∈ words text) : word <:+: text := by
  obtain ⟨first, rest, hpieces, hfirst, hrest⟩ := exists_pieces_cons text
  have hmem : word ∈ pieces text := (List.mem_filter.mp h).1
  rw [hpieces] at hmem
  rcases List.mem_cons.mp hmem with rfl | hmem
  · exact hfirst.isInfix
  · exact hrest word hmem

/-- A text ends with a literal if the literal is its end, but for letter case. -/
theorem endsWith_iff {literal text : Bytes} :
    endsWith literal text = true ↔ literal.lower <:+ text.lower := by
  rw [endsWith, beginsWith_iff, lower, lower, List.map_reverse, List.map_reverse,
    List.reverse_prefix]
  rfl

end Bytes

namespace Operator

/-! ### Order -/

/-- The order of texts is that of lists of bytes. -/
theorem precedes_iff {s t : Bytes} : precedes s t = true ↔ s < t := by
  induction s generalizing t with
  | nil => cases t <;> simp [precedes]
  | cons a s ih =>
    cases t with
    | nil => simp [precedes]
    | cons b t => simp [precedes, List.cons_lt_cons_iff, ih]

/-- A text that does not come before another one is the same or comes behind it. -/
theorem not_precedes_iff {s t : Bytes} :
    (! precedes s t) = true ↔ precedes t s = true ∨ t = s := by
  rw [Bool.not_eq_true', Bool.eq_false_iff, Ne, precedes_iff, precedes_iff, List.not_lt,
    List.le_iff_lt_or_eq]

/-! ### Weaker comparisons -/

/-- The comparisons that hold of a value whenever this one does. -/
def weaker : Operator → List Operator
  | equals => [lessOrEqual, greaterOrEqual, hyphenated, startsWith, endsWith, contains]
  | less => [lessOrEqual, notEquals]
  | greater => [greaterOrEqual, notEquals]
  | hyphenated => [startsWith]
  | startsWith => [contains]
  | endsWith => [contains]
  | allWords => [anyWord]
  | _ => []

variable {actual expected : Bytes}

/-- A text that comes before or behind another one is not the same. -/
theorem ne_of_precedes (h : precedes actual expected = true) : actual ≠ expected := by
  rintro rfl
  rw [precedes_self] at h
  contradiction

/-- A text that continues another one with a hyphen starts with it. -/
theorem isPrefix_of_continuesWithHyphen (h : continuesWithHyphen actual expected = true) :
    expected <+: actual := by
  rw [continuesWithHyphen] at h
  split at h
  · next b rest hstrip => exact ⟨b :: rest, (Bytes.strip?_eq_some_iff.mp hstrip).symm⟩
  · contradiction

/-- A text starts with what it begins with byte for byte. -/
theorem beginsWith_of_isPrefix (h : expected <+: actual) :
    Bytes.beginsWith expected actual = true := Bytes.beginsWith_iff.mpr (h.map _)

private theorem apply_weaker_equals {op : Operator} (h : op ∈ equals.weaker) :
    op.apply actual actual = true := by
  simp only [weaker, List.mem_cons, List.not_mem_nil, or_false] at h
  rcases h with rfl | rfl | rfl | rfl | rfl | rfl
  · rw [apply, precedes_self, Bool.not_false]
  · rw [apply, precedes_self, Bool.not_false]
  · rw [apply, beq_self_eq_true, Bool.true_or]
  · exact beginsWith_of_isPrefix List.prefix_rfl
  · exact Bytes.endsWith_iff.mpr List.suffix_rfl
  · exact Bytes.holds_iff_isInfix.mpr List.infix_rfl

/-- What holds of a value under one comparison holds of it under the weaker ones. -/
theorem apply_weaker {op other : Operator} (hother : other ∈ op.weaker)
    (h : op.apply actual expected = true) : other.apply actual expected = true := by
  cases op with
  | equals =>
    obtain rfl : actual = expected := beq_iff_eq.mp h
    exact apply_weaker_equals hother
  | less =>
    simp only [weaker, List.mem_cons, List.not_mem_nil, or_false] at hother
    rcases hother with rfl | rfl
    · exact not_precedes_iff.mpr (.inl h)
    · exact bne_iff_ne.mpr (ne_of_precedes h)
  | greater =>
    simp only [weaker, List.mem_cons, List.not_mem_nil, or_false] at hother
    rcases hother with rfl | rfl
    · exact not_precedes_iff.mpr (.inl h)
    · exact bne_iff_ne.mpr (ne_of_precedes h).symm
  | hyphenated =>
    obtain rfl := List.mem_singleton.mp hother
    rcases Bool.or_eq_true_iff.mp h with h | h
    · exact beginsWith_of_isPrefix (beq_iff_eq.mp h ▸ List.prefix_rfl)
    · exact beginsWith_of_isPrefix (isPrefix_of_continuesWithHyphen h)
  | startsWith =>
    obtain rfl := List.mem_singleton.mp hother
    exact Bytes.holds_iff_isInfix.mpr (Bytes.beginsWith_iff.mp h).isInfix
  | endsWith =>
    obtain rfl := List.mem_singleton.mp hother
    exact Bytes.holds_iff_isInfix.mpr (Bytes.endsWith_iff.mp h).isInfix
  | allWords =>
    obtain rfl := List.mem_singleton.mp hother
    rw [apply, Bool.and_eq_true, Bool.not_eq_true', List.isEmpty_eq_false_iff_exists_mem,
      List.all_eq_true] at h
    obtain ⟨⟨word, hword⟩, hall⟩ := h
    exact List.any_eq_true.mpr ⟨word, hword, hall word hword⟩
  | notEquals | lessOrEqual | greaterOrEqual | anyWord | contains | notContains | notStartsWith |
    notEndsWith | present => contradiction

/-- A value with a word of the expected value holds that word. -/
theorem exists_contains_of_anyWord (h : anyWord.apply actual expected = true) :
    ∃ word ∈ Bytes.words expected, contains.apply actual word = true := by
  obtain ⟨word, hword, hmem⟩ := List.any_eq_true.mp h
  have hpart := Bytes.isInfix_of_mem_words (List.contains_iff_mem.mp hmem)
  exact ⟨word, hword, Bytes.holds_iff_isInfix.mpr (hpart.map _)⟩

/-! ### Opposite comparisons -/

/-- The comparison that holds exactly where this one does not, if there is one. -/
def opposite? : Operator → Option Operator
  | equals => some notEquals
  | notEquals => some equals
  | less => some greaterOrEqual
  | greaterOrEqual => some less
  | greater => some lessOrEqual
  | lessOrEqual => some greater
  | contains => some notContains
  | notContains => some contains
  | startsWith => some notStartsWith
  | notStartsWith => some startsWith
  | endsWith => some notEndsWith
  | notEndsWith => some endsWith
  | _ => none

/-- Of two opposite comparisons exactly one holds. -/
theorem apply_opposite {op other : Operator} (h : op.opposite? = some other)
    (actual expected : Bytes) : other.apply actual expected = ! op.apply actual expected := by
  cases op <;> cases h <;> simp [apply, bne]

end Operator

/-- Of an attribute that is present exactly one of two opposite atoms holds, and of an absent one
neither. -/
theorem Atom.evaluate_opposite {atom : Atom} {other : Operator}
    (h : atom.operator.opposite? = some other) (attributes : AttributeMap) :
    (attributes.contains (Bytes.ofString atom.field) = true →
      ({ atom with operator := other } : Atom).evaluate attributes = ! atom.evaluate attributes) ∧
      (attributes.contains (Bytes.ofString atom.field) = false →
        atom.evaluate attributes = false ∧
          ({ atom with operator := other } : Atom).evaluate attributes = false) := by
  rw [AttributeMap.contains_eq_isSome_get?, Atom.evaluate, Atom.evaluate]
  cases attributes.get? (Bytes.ofString atom.field) with
  | none => exact ⟨fun h ↦ by contradiction, fun _ ↦ ⟨rfl, rfl⟩⟩
  | some actual => exact ⟨fun _ ↦ Operator.apply_opposite h _ _, fun h ↦ by contradiction⟩

/-- A comparison that holds of a value brings the weaker ones with it, and a common word is a part
of the value. Of an attribute that is present, exactly one of an atom and the atom with the opposite
comparison holds, and of an absent attribute neither does. -/
theorem Operator.apply_related (actual expected : Bytes) :
    ((∀ op : Operator, ∀ other ∈ op.weaker,
        op.apply actual expected = true → other.apply actual expected = true) ∧
      (anyWord.apply actual expected = true →
        ∃ word ∈ Bytes.words expected, contains.apply actual word = true)) ∧
      ∀ (atom : Atom) (other : Operator), atom.operator.opposite? = some other →
        ∀ attributes : AttributeMap,
          (attributes.contains (Bytes.ofString atom.field) = true →
            ({ atom with operator := other } : Atom).evaluate attributes =
              ! atom.evaluate attributes) ∧
          (attributes.contains (Bytes.ofString atom.field) = false →
            atom.evaluate attributes = false ∧
              ({ atom with operator := other } : Atom).evaluate attributes = false) :=
  ⟨⟨fun _ _ ↦ apply_weaker, exists_contains_of_anyWord⟩, fun _ _ h ↦ Atom.evaluate_opposite h⟩

/-- A value that continues the expected one with a hyphen starts with it. Of an attribute without a
value the empty text is a part, so that the atom holds and the opposite one does not; of a map
without the attribute neither holds. -/
theorem Operator.apply_related_valueless :
    let actual := Bytes.ofString "en-US"
    let expected := Bytes.ofString "en"
    let atom : Atom := ⟨"lang", contains, ""⟩
    let opposite : Atom := ⟨"lang", notContains, ""⟩
    let attributes : AttributeMap := ⟨[(Bytes.ofString "Lang", none)], by decide⟩
    (hyphenated.apply actual expected = true ∧ startsWith.apply actual expected = true) ∧
      (attributes.contains (Bytes.ofString atom.field) = true ∧
        opposite.evaluate attributes = ! atom.evaluate attributes ∧
          atom.evaluate attributes = true) ∧
      (AttributeMap.empty.contains (Bytes.ofString atom.field) = false ∧
        atom.evaluate .empty = false ∧ opposite.evaluate .empty = false) := by
  intro actual expected atom opposite attributes
  obtain ⟨⟨hweaker, -⟩, hopposite⟩ := apply_related actual expected
  have hhyphen : hyphenated.apply actual expected = true := by decide
  have hpresent : attributes.contains (Bytes.ofString atom.field) = true := by decide
  refine ⟨⟨hhyphen, hweaker hyphenated startsWith (by decide) hhyphen⟩,
    ⟨hpresent, (hopposite atom notContains rfl attributes).1 hpresent, by decide⟩, rfl,
    (hopposite atom notContains rfl .empty).2 rfl⟩

end MarkupSelect
