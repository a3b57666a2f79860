import Mathlib.Data.Bool.AllAny
import MarkupSelect.Condition.Reading
import MarkupSelect.Proofs.Text.Escape
import MarkupSelect.Proofs.Text.LetterCase
import MarkupSelect.Proofs.Text.Trim

/-!
# The grammar of conditions

A clause is written as a field alone, or as a field, a spelling of an operator and a value in
quotes, with a blank between them; clauses in one group are joined by ` AND `, and groups by ` OR `.
Outside quotes there is no capital letter in a clause, so that no separator can be mistaken for a
part of it.
-/

namespace MarkupSelect.Grammar

/-! ### Clauses -/

/-- The characters of which the field of a clause consists: ASCII letters of lower case, digits, `-`
and `_`. -/
def fieldChars : List Char :=
  ['a', 'b', 'c', 'd', 'e', 'f', 'g', 'h', 'i', 'j', 'k', 'l', 'm', 'n', 'o', 'p', 'q', 'r', 's',
    't', 'u', 'v', 'w', 'x', 'y', 'z', '0', '1', '2', '3', '4', '5', '6', '7', '8', '9', '-', '_']

/-- The field of a clause. -/
structure Field where
  chars : List Char
  ne_nil : chars ≠ []
  mem : ∀ c ∈ chars, c ∈ fieldChars

/-- A way to write an operator, with the operator that is meant. -/
structure Spelling where
  text : String
  operator : Operator
  mem : (text, operator) ∈ Operator.aliases

/-- A question about one attribute: whether it is there, or how its value compares with another. -/
inductive Clause where
  | present (field : Field)
  | compares (field : Field) (spelling : Spelling) (quote : Text.Quote) (value : List Char)

namespace Clause

/-- A clause as it is written. -/
def written : Clause → List Char
  | present field => field.chars
  | compares field spelling quote value =>
    field.chars ++ ' ' :: (spelling.text.toList ++ ' ' :: quote.enclose value)

/-- The atom that a clause stands for. -/
def atom : Clause → Atom
  | present field => ⟨String.ofList field.chars, .present, ""⟩
  | compares field spelling _ value =>
    ⟨String.ofList field.chars, spelling.operator, String.ofList value⟩

end Clause

/-- Clauses as they are written in one group. -/
def group (clauses : List Clause) : List Char :=
  " AND ".toList.intercalate (clauses.map Clause.written)

/-- Groups as they are written in one condition. -/
def disjunction (groups : List (List Clause)) : List Char :=
  " OR ".toList.intercalate (groups.map group)

/-! ### Characters outside quotes -/

/-- A character that begins no quote and is no capital letter. -/
def IsLow (c : Char) : Prop := c.isUpper = false ∧ c ≠ '"' ∧ c ≠ '\''

/-- Whether a character is low is computed from its case and the two quotes. -/
instance (c : Char) : Decidable (IsLow c) := inferInstanceAs (Decidable (_ ∧ _))

/-- Low characters in lower case are what they were. -/
theorem map_toLower {cs : List Char} (h : ∀ c ∈ cs, IsLow c) : cs.map Char.toLower = cs := by
  have hlower : ∀ c ∈ cs, c.toLower = id c := fun c hc ↦
    Text.toLower_of_not_isUpper (h c hc).1
  rw [List.map_congr_left hlower, List.map_id]

/-- What can be checked of all characters of fields is so in each field. -/
theorem Field.forall_of_all {P : Char → Prop} [DecidablePred P] (field : Field)
    (h : (fieldChars.all fun c ↦ decide (P c)) = true) : ∀ c ∈ field.chars, P c :=
  fun c hc ↦ List.all_iff_forall_prop.mp h c (field.mem c hc)

/-- The characters of fields are low. -/
theorem Field.isLow (field : Field) : ∀ c ∈ field.chars, IsLow c :=
  field.forall_of_all (by decide)

/-- There is no blank in a field. -/
theorem Field.notBlank (field : Field) : ∀ c ∈ field.chars, Text.isBlank c = false :=
  field.forall_of_all (by decide)

/-- A field does not end within itself. -/
theorem Field.endsField (field : Field) :
    ∀ c ∈ field.chars, (! Condition.endsField c) = true :=
  field.forall_of_all (by decide)

private theorem aliases_facts : ∀ a ∈ Operator.aliases,
    (a.1.toList.all fun c ↦ decide (IsLow c)) = true ∧
      a.1.toList.head?.any (! Text.isBlank ·) = true ∧
        a.1.toList.getLast?.any (! Text.isBlank ·) = true := by
  decide

/-- The characters of spellings are low. -/
theorem Spelling.isLow (spelling : Spelling) : ∀ c ∈ spelling.text.toList, IsLow c :=
  List.all_iff_forall_prop.mp (aliases_facts _ spelling.mem).1

/-! ### Ends -/

/-- What is written has no blank at either end and does not begin with a capital letter. -/
def HasClauseEnds (cs : List Char) : Prop :=
  Text.Ends (fun c ↦ Text.isBlank c = false ∧ c.isUpper = false) (Text.isBlank · = false) cs

/-- Nothing is trimmed from what is written. -/
theorem HasClauseEnds.isTrimmed {cs : List Char} (h : HasClauseEnds cs) : Text.IsTrimmed cs :=
  Text.Ends.mono h (fun _ hc ↦ hc.1) (fun _ hc ↦ hc)

/-- A field has the ends of a clause. -/
theorem Field.hasClauseEnds (field : Field) : HasClauseEnds field.chars :=
  (Text.Ends.of_forall field.ne_nil fun c hc ↦
    And.intro (field.notBlank c hc) (field.isLow c hc).1).mono (fun _ hc ↦ hc) (fun _ hc ↦ hc.1)

/-- A spelling has the ends of a clause. -/
theorem Spelling.hasClauseEnds (spelling : Spelling) : HasClauseEnds spelling.text.toList := by
  obtain ⟨-, hhead, hend⟩ := aliases_facts _ spelling.mem
  obtain ⟨c, hc, hfirst⟩ := (Option.any_eq_true _ _).mp hhead
  obtain ⟨d, hd, hlast⟩ := (Option.any_eq_true _ _).mp hend
  rw [Bool.not_eq_true'] at hfirst hlast
  exact ⟨⟨c, hc, hfirst, (spelling.isLow c (List.mem_of_head? hc)).1⟩, ⟨d, hd, hlast⟩⟩

/-- Text in quotes has the ends of a clause. -/
theorem hasClauseEnds_enclose (quote : Text.Quote) (value : List Char) :
    HasClauseEnds (quote.enclose value) := by
  have hquote : Text.isBlank quote.char = false ∧ quote.char.isUpper = false := by
    cases quote <;> decide
  constructor
  · exact ⟨quote.char, rfl, hquote⟩
  · exact ⟨quote.char, by rw [Text.Quote.enclose, List.getLast?_concat], hquote.1⟩

/-- An operator with its value has the ends of a clause. -/
theorem hasClauseEnds_comparison (spelling : Spelling) (quote : Text.Quote) (value : List Char) :
    HasClauseEnds (spelling.text.toList ++ ' ' :: quote.enclose value) := by
  have hends := spelling.hasClauseEnds.append [' '] (hasClauseEnds_enclose quote value)
  rwa [List.append_assoc] at hends

/-- A clause has its ends. -/
theorem Clause.hasClauseEnds (clause : Clause) : HasClauseEnds clause.written := by
  cases clause with
  | present field => exact field.hasClauseEnds
  | compares field spelling quote value =>
    have hends := field.hasClauseEnds.append [' '] (hasClauseEnds_comparison spelling quote value)
    rwa [List.append_assoc] at hends

/-- The clauses behind the first stand behind ` AND `. -/
theorem group_cons_cons (clause next : Clause) (clauses : List Clause) :
    group (clause :: next :: clauses) =
      clause.written ++ [' ', 'A', 'N', 'D', ' '] ++ group (next :: clauses) :=
  List.intercalate_cons_cons

/-- A clause is a group by itself. -/
theorem group_singleton (clause : Clause) : group [clause] = clause.written :=
  List.intercalate_singleton

/-- Pieces with the ends of a clause have them when they are joined. -/
theorem hasClauseEnds_intercalate (separator : List Char) {pieces : List (List Char)}
    (hne : pieces ≠ []) (h : ∀ piece ∈ pieces, HasClauseEnds piece) :
    HasClauseEnds (separator.intercalate pieces) := by
  induction pieces with
  | nil => contradiction
  | cons piece pieces ih =>
    rw [List.forall_mem_cons] at h
    cases pieces with
    | nil =>
      rw [List.intercalate_singleton]
      exact h.1
    | cons next pieces =>
      rw [List.intercalate_cons_cons]
      exact h.1.append _ (ih (List.cons_ne_nil _ _) h.2)

/-- A group has the ends of a clause. -/
theorem hasClauseEnds_group {clauses : List Clause} (hne : clauses ≠ []) :
    HasClauseEnds (group clauses) := by
  apply hasClauseEnds_intercalate
  · simpa using hne
  · intro piece hpiece
    obtain ⟨clause, -, rfl⟩ := List.mem_map.mp hpiece
    exact clause.hasClauseEnds

end MarkupSelect.Grammar
