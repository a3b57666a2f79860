import MarkupSelect.Proofs.Selector.Grammar
import MarkupSelect.Proofs.Selector.Passage

/-!
# Reading names and brackets

A name is collected character by character, and so are the operator and the value of a bracket. When
the bracket ends, its predicate is one more of the step, whatever blanks and quotes there were and
whatever there is in the value.
-/

namespace MarkupSelect.Builder

open Grammar

variable {b c : Builder} {cs : List Char}

/-! ### Names and values -/

/-- Characters that are added one by one to what is being read are added in order. -/
theorem reads_collect {f : List Char → Reading} {lexeme : Char → Lexeme}
    (h : ∀ c ∈ cs, ∀ read position, feed { b with reading := f read } position (lexeme c) =
      .ok { b with reading := f (read ++ [c]) }) (read : List Char) :
    Reads { b with reading := f read } (cs.map lexeme) { b with reading := f (read ++ cs) } := by
  induction cs generalizing read with
  | nil =>
    rw [List.append_nil]
    exact .nil _
  | cons c cs ih =>
    rw [List.forall_mem_cons] at h
    refine .cons (h.1 read) ?_
    have hrest := ih h.2 (read ++ [c])
    rwa [List.append_assoc, List.singleton_append] at hrest

/-- Characters that stand for themselves are added to a name. -/
theorem readsText_collect {f : List Char → Reading}
    (hf : ∀ c read position, feed { b with reading := f read } position ⟨.literal, c⟩ =
      .ok { b with reading := f (read ++ [c]) })
    (hcs : ∀ c ∈ cs, CharKind.isReserved c = false ∧ Text.isBlank c = false) (read : List Char) :
    ReadsText { b with reading := f read } cs { b with reading := f (read ++ cs) } := by
  apply ReadsText.of_plain fun c hc ↦ CharKind.ne_backslash_of_isReserved (hcs c hc).1
  apply reads_collect
  intro c hc read position
  rw [CharKind.ofChar_of_plain (hcs c hc).1 (hcs c hc).2]
  exact hf c read position

/-- Blanks are skipped where they change nothing. -/
theorem readsText_skip (hcs : ∀ c ∈ cs, Text.isBlank c = true)
    (h : ∀ c position, b.feed position ⟨.space, c⟩ = .ok b) : ReadsText b cs b := by
  refine ⟨_, Lexeme.ofText_blanks hcs, .of_same fun l hl ↦ ?_⟩
  obtain ⟨c, -, rfl⟩ := List.mem_map.mp hl
  exact h c

/-- A word is read as a tag name. -/
theorem readsText_tagName (h : b.reading = .between) (word : Word) :
    ReadsText b word.chars { b with reading := .tagName word.chars } := by
  obtain ⟨chars, hne, hplain⟩ := word
  obtain ⟨c, cs, rfl⟩ := List.exists_cons_of_ne_nil hne
  rw [List.forall_mem_cons] at hplain
  obtain ⟨⟨hreserved, hblank⟩, hrest⟩ := hplain
  have hfirst : ReadsText b [c] { b with reading := .tagName [c] } := by
    apply ReadsText.singleton (CharKind.ne_backslash_of_isReserved hreserved)
    intro position
    rw [CharKind.ofChar_of_plain hreserved hblank, feed, h]
    rfl
  exact hfirst.append (readsText_collect (fun _ _ _ ↦ rfl) hrest [c])

/-- Characters that are escaped where they are reserved are added to a name. -/
theorem readsText_written {f : List Char → Reading}
    (hf : ∀ c read position, feed { b with reading := f read } position ⟨.literal, c⟩ =
      .ok { b with reading := f (read ++ [c]) }) (name : Name) :
    ReadsText { b with reading := f [] } name.written { b with reading := f name.chars } := by
  apply ReadsText.escape rfl (fun _ h ↦ h)
  refine reads_collect (fun c hc read position ↦ ?_) []
  have hliteral : Lexeme.ofEscaped CharKind.isReserved c = ⟨.literal, c⟩ := by
    rw [Lexeme.ofEscaped]
    cases hreserved : CharKind.isReserved c with
    | true => rfl
    | false =>
      rw [CharKind.ofChar_of_plain hreserved (name.notBlank c hc)]
      rfl
  rw [hliteral]
  exact hf c read position

/-- A `#` or a `.` begins a short form. -/
theorem readsText_opening (h : b.settle = .ok c) (kind : Shorthand) :
    ReadsText b [kind.char] { c with reading := .shorthand kind [] } := by
  cases kind with
  | identifier => exact .singleton (by decide) (feed_of_settle h (by decide))
  | className => exact .singleton (by decide) (feed_of_settle h (by decide))

/-- A word is read behind `#` or `.`. -/
theorem readsText_shorthand (h : b.settle = .ok c) (kind : Shorthand) (word : Word) :
    ReadsText b (kind.char :: word.chars) { c with reading := .shorthand kind word.chars } :=
  (readsText_opening h kind).append (readsText_collect (fun _ _ _ ↦ rfl) word.isPlain [])

/-- A name is read behind `#` or `.`, with what is reserved in it escaped. -/
theorem readsText_escaped (h : b.settle = .ok c) (kind : Shorthand) (name : Name) :
    ReadsText b (kind.char :: name.written) { c with reading := .shorthand kind name.chars } :=
  (readsText_opening h kind).append (readsText_written (fun _ _ _ ↦ rfl) name)

/-! ### Operators -/

/-- The characters of operators are punctuation that ends no bracket. -/
theorem of_mem_operatorChars {c : Char} (h : c ∈ operatorChars) :
    CharKind.isReserved c = true ∧ c ≠ '\\' ∧ c ≠ ']' := by
  have hall : ∀ c ∈ operatorChars, CharKind.isReserved c = true ∧ c ≠ '\\' ∧ c ≠ ']' :=
    List.all_iff_forall_prop.mp (by decide)
  exact hall c h

/-- The symbols of operators consist of these characters. -/
theorem mem_operatorChars_of_mem_symbol {operator : Operator} {c : Char}
    (h : c ∈ operator.symbol.toList) : c ∈ operatorChars := by
  have hall : (operator.symbol.toList.all fun c ↦ decide (c ∈ operatorChars)) = true := by
    cases operator <;> decide
  exact List.all_iff_forall_prop.mp hall c h

/-- An operator that compares has a symbol. -/
theorem symbol_ne_nil {operator : Operator} (h : operator ≠ .present) :
    operator.symbol.toList ≠ [] := by
  cases operator with
  | present => contradiction
  | _ => decide

/-- Each symbol is that of its operator. -/
theorem operatorOf_symbol {operator : Operator} (h : operator ≠ .present) :
    operatorOf operator.symbol.toList = .ok operator := by
  cases operator with
  | present => contradiction
  | _ => rfl

/-- In a bracket a character of an operator is added to the symbol. -/
theorem inOperator_of_mem {c : Char} (hc : c ∈ operatorChars) (b : Builder) (position : Nat)
    (name symbol : List Char) : b.inOperator position ⟨.punctuation, c⟩ name symbol =
      .ok { b with reading := .operator name (symbol ++ [c]) } := by
  obtain ⟨-, -, hbracket⟩ := of_mem_operatorChars hc
  simp [inOperator, Lexeme.isPunctuation, hbracket, hc]

/-- Behind an operator a quote begins the value. -/
theorem inOperator_quote (quote : Text.Quote) (b : Builder) (position : Nat) (name : List Char)
    {symbol : List Char} (h : symbol ≠ []) :
    b.inOperator position ⟨.punctuation, quote.char⟩ name symbol =
      .ok { b with reading := .value name symbol (some quote.char) [] } := by
  have hquote : quote.char ≠ ']' ∧ quote.char ∉ operatorChars := by
    cases quote <;> decide
  simp [inOperator, Lexeme.isPunctuation, h, hquote, quote.char_eq]

/-! ### Brackets -/

/-- In a bracket the name has been read, and the operator or the end of the bracket is next. -/
def Awaits (b c : Builder) (name : List Char) : Prop :=
  ∀ position char, b.feed position ⟨.punctuation, char⟩ =
    c.inOperator position ⟨.punctuation, char⟩ name []

/-- Blanks behind a name do not matter. -/
theorem exists_awaits (c : Builder) (name : Name) (blanks : Blanks) :
    ∃ b, ReadsText { c with reading := .attributeName name.chars } blanks.chars b ∧
      Awaits b c name.chars := by
  obtain ⟨cs, hcs⟩ := blanks
  have hname : name.chars.isEmpty = false := by simpa using name.ne_nil
  cases cs with
  | nil =>
    refine ⟨_, .nil _, fun position char ↦ ?_⟩
    simp only [feed, inAttributeName, hname]
    rfl
  | cons blank cs =>
    rw [List.forall_mem_cons] at hcs
    have hfirst : ReadsText { c with reading := .attributeName name.chars } [blank]
        { c with reading := .operator name.chars [] } := by
      apply ReadsText.singleton (CharKind.ne_backslash_of_isBlank hcs.1)
      intro position
      simp only [CharKind.ofChar_of_isBlank hcs.1, feed, inAttributeName, hname]
      rfl
    exact ⟨_, hfirst.append (readsText_skip hcs.2 fun _ _ ↦ rfl), fun _ _ ↦ rfl⟩

/-- The name of a bracket is read with the blanks in front of it. -/
theorem readsText_name (h : b.settle = .ok c) (blanks : Blanks) (name : Name) :
    ReadsText b ('[' :: (blanks.chars ++ name.written))
      { c with reading := .attributeName name.chars } := by
  have hopen : ReadsText b ['['] { c with reading := .attributeName [] } :=
    .singleton (by decide) (feed_of_settle h (by decide))
  exact hopen.append ((readsText_skip blanks.isBlank fun _ _ ↦ rfl).append
    (readsText_written (fun _ _ _ ↦ rfl) name))

/-- The operator of a bracket is read with the blanks behind it. -/
theorem readsText_operator {name : List Char} (h : Awaits b c name) {operator : Operator}
    (hoperator : operator ≠ .present) (blanks : Blanks) :
    ReadsText b (operator.symbol.toList ++ blanks.chars)
      { c with reading := .operator name operator.symbol.toList } := by
  have hmem : ∀ c ∈ operator.symbol.toList, c ∈ operatorChars := fun c hc ↦
    mem_operatorChars_of_mem_symbol hc
  obtain ⟨first, rest, hsymbol⟩ := List.exists_cons_of_ne_nil (symbol_ne_nil hoperator)
  rw [hsymbol] at hmem ⊢
  refine ReadsText.append (c := { c with reading := .operator name (first :: rest) }) ?_
    (readsText_skip blanks.isBlank fun _ _ ↦ rfl)
  have hkind : ∀ c ∈ first :: rest, CharKind.ofChar c = .punctuation := fun c hc ↦
    CharKind.ofChar_of_isReserved (of_mem_operatorChars (hmem c hc)).1
  apply ReadsText.of_plain fun c hc ↦ (of_mem_operatorChars (hmem c hc)).2.1
  rw [List.forall_mem_cons] at hmem hkind
  apply Reads.cons (c := { c with reading := .operator name [first] })
  · intro position
    dsimp only
    rw [hkind.1, h, inOperator_of_mem hmem.1, List.nil_append]
  · refine reads_collect (f := .operator name) (fun c hc read position ↦ ?_) [first]
    rw [hkind.2 c hc]
    exact inOperator_of_mem (hmem.2 c hc) _ position name read

private theorem isPunctuation_ofEscaped (quote : Text.Quote) (c : Char) :
    (Lexeme.ofEscaped quote.isSpecial c).isPunctuation quote.char = false := by
  cases hc : quote.isSpecial c with
  | true => simp [Lexeme.isPunctuation, Lexeme.ofEscaped, hc]
  | false =>
    have hne := (Text.Quote.isSpecial_eq_false_iff.mp hc).1
    simp [Lexeme.isPunctuation, Lexeme.ofEscaped, hc, hne]

/-- A value in quotes is read with the blanks behind it. -/
theorem readsText_value (b : Builder) (name : List Char) {symbol : List Char}
    (hsymbol : symbol ≠ []) (quote : Text.Quote) (value : List Char) (blanks : Blanks) :
    ReadsText { b with reading := .operator name symbol }
      (quote.enclose value ++ blanks.chars)
      { b with reading := .afterValue name symbol value } := by
  have hreserved : CharKind.isReserved quote.char = true := by
    cases quote <;> decide
  have hkind := CharKind.ofChar_of_isReserved hreserved
  have hopen : ReadsText { b with reading := .operator name symbol } [quote.char]
      { b with reading := .value name symbol (some quote.char) [] } := by
    apply ReadsText.singleton quote.char_ne_backslash
    intro position
    rw [hkind]
    exact inOperator_quote quote _ position name hsymbol
  have hvalue : ReadsText { b with reading := .value name symbol (some quote.char) [] }
      (Text.escape quote.isSpecial value)
      { b with reading := .value name symbol (some quote.char) value } := by
    apply ReadsText.escape
    · simp [Text.Quote.isSpecial]
    · intro c hc
      rw [Text.Quote.isSpecial, Bool.or_eq_true, beq_iff_eq, beq_iff_eq] at hc
      rcases hc with rfl | rfl
      · exact hreserved
      · decide
    · refine reads_collect (f := .value name symbol (some quote.char))
        (fun c _ read position ↦ ?_) []
      simp only [feed, inValue, isPunctuation_ofEscaped]
      rfl
  have hclose : ReadsText { b with reading := .value name symbol (some quote.char) value }
      [quote.char] { b with reading := .afterValue name symbol value } := by
    apply ReadsText.singleton quote.char_ne_backslash
    intro position
    rw [hkind]
    simp [feed, inValue, Lexeme.isPunctuation]
  have hrest := readsText_skip (b := { b with reading := .afterValue name symbol value })
    blanks.isBlank fun _ _ ↦ rfl
  rw [Text.Quote.enclose, ← List.singleton_append, List.append_assoc]
  exact hopen.append (hvalue.append (hclose.append hrest))

/-- A bracket adds its predicate to the step. -/
theorem readsText_bracket (h : b.settle = .ok c) (bracket : Bracket) :
    ReadsText b bracket.written
      { c with reading := .between, predicates := c.predicates ++ [bracket.predicate] } := by
  obtain ⟨d, hd, hawaits⟩ := exists_awaits c bracket.name bracket.behind
  have hname := (readsText_name h bracket.before bracket.name).append hd
  rw [List.cons_append] at hname
  rw [Bracket.written, Bracket.ending, ← List.cons_append]
  refine hname.append ?_
  rw [Bracket.predicate]
  cases bracket.test with
  | none =>
    refine .singleton (by decide) fun position ↦ ?_
    rw [CharKind.ofChar_of_isReserved (by decide), hawaits]
    rfl
  | some test =>
    have hoperator := readsText_operator hawaits test.compares test.before
    have hvalue := readsText_value c bracket.name.chars (symbol_ne_nil test.compares) test.quote
      test.value test.behind
    have htest := hoperator.append hvalue
    rw [← List.append_assoc, ← Test.written] at htest
    refine htest.append (.singleton (by decide) fun position ↦ ?_)
    rw [CharKind.ofChar_of_isReserved (by decide)]
    change withPredicate _ _ _ _ = _
    rw [withPredicate, operatorOf_symbol test.compares]
    rfl

end MarkupSelect.Builder
