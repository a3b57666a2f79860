import Mathlib.Data.List.TakeWhile
import MarkupSelect.Proofs.Condition.Grammar
import MarkupSelect.Proofs.Condition.Split

/-!
# Conditions are read as they are written

A clause is read as the atom that it stands for, whatever there is in the value; clauses joined by
` AND ` are read as one group, and groups joined by ` OR ` as one condition.
-/

namespace MarkupSelect

/-! ### Operators -/

namespace Operator

private theorem head?_drop_append {known rest : List Char} {n : Nat} (h : n ≤ known.length)
    (c : Char) : ((known ++ c :: rest).drop n).head? = ((known ++ [c]).drop n).head? := by
  rw [List.drop_append_of_le_length h, List.drop_append_of_le_length h, List.head?_append,
    List.head?_append]
  rfl

/-- Whether something is spelled at the beginning of a text does not depend on what stands behind a
character that is not in the spelling. -/
theorem isSpelled_append_cons {spelling : List Char} {c : Char}
    (h : c.toLower ∉ spelling.map Char.toLower) (known rest : List Char) :
    isSpelled spelling (known ++ c :: rest) = isSpelled spelling (known ++ [c]) := by
  unfold isSpelled
  by_cases hlength : spelling.length ≤ known.length
  · rw [List.take_append_of_le_length hlength, List.take_append_of_le_length hlength,
      head?_drop_append hlength]
  · -- The spelling would have to go on over the character.
    have hlong : ∀ rest, ((known ++ c :: rest).take spelling.length).map Char.toLower ≠
        spelling.map Char.toLower := by
      intro rest heq
      apply h
      rw [← heq]
      apply List.mem_map_of_mem
      obtain ⟨n, hn⟩ : ∃ n, spelling.length = known.length + (n + 1) :=
        ⟨spelling.length - known.length - 1, by omega⟩
      rw [hn, List.take_length_add_append, List.take_succ_cons]
      exact List.mem_append_right _ List.mem_cons_self
    rw [beq_eq_false_iff_ne.mpr (hlong rest), beq_eq_false_iff_ne.mpr (hlong [])]
    rfl

/-- No spelling of an operator holds a quote, in whatever letter case. -/
theorem toLower_quote_not_mem (spelling : Grammar.Spelling) (quote : Text.Quote) :
    quote.char.toLower ∉ spelling.text.toList.map Char.toLower := by
  rw [Grammar.map_toLower spelling.isLow]
  intro hmem
  obtain ⟨-, hdouble, hsingle⟩ := spelling.isLow _ hmem
  cases quote with
  | single => exact hsingle rfl
  | double => exact hdouble rfl

private theorem longest?_spelling : ∀ a ∈ aliases, ∀ quote ∈ [Text.Quote.single, .double],
    longest? (aliases.filter fun b ↦ isSpelled b.1.toList (a.1.toList ++ ' ' :: [quote.char])) =
      some a := by
  decide

/-- A spelling with a blank and a quote behind it is read as its operator. -/
theorem ofText?_spelling (spelling : Grammar.Spelling) (quote : Text.Quote) (rest : List Char) :
    ofText? (spelling.text.toList ++ ' ' :: quote.char :: rest) =
      some (spelling.operator, ' ' :: quote.char :: rest) := by
  have hspelled : ∀ a ∈ aliases,
      isSpelled a.1.toList (spelling.text.toList ++ ' ' :: quote.char :: rest) =
        isSpelled a.1.toList (spelling.text.toList ++ ' ' :: [quote.char]) := by
    intro a ha
    have hknown := isSpelled_append_cons (toLower_quote_not_mem ⟨a.1, a.2, ha⟩ quote)
      (spelling.text.toList ++ [' ']) rest
    rwa [List.append_assoc, List.append_assoc] at hknown
  have hmem : quote ∈ [Text.Quote.single, .double] := by
    cases quote <;> decide
  rw [ofText?, List.filter_congr hspelled, longest?_spelling _ spelling.mem quote hmem,
    Option.map_some, List.drop_left' String.length_toList]

end Operator

namespace Condition

open Grammar

/-! ### Values -/

/-- A value in quotes is read up to the quote that closes it. -/
theorem unescape?_escape (quote : Text.Quote) (cs rest : List Char) :
    unescape? quote.char (Text.escape quote.isSpecial cs ++ quote.char :: rest) = some cs := by
  induction cs with
  | nil => simp [unescape?, quote.char_ne_backslash]
  | cons c cs ih =>
    rw [Text.escape_cons]
    cases hc : quote.isSpecial c with
    | true => simp [unescape?, ih]
    | false =>
      obtain ⟨hquote, hback⟩ := Text.Quote.isSpecial_eq_false_iff.mp hc
      simp [unescape?, hquote, hback, ih]

/-- What is written in quotes is the value that is read. -/
theorem readValue_enclose (quote : Text.Quote) (value : List Char) :
    readValue (quote.enclose value) = .ok (String.ofList value) := by
  rw [Text.Quote.enclose, List.cons_append]
  simp [readValue, quote.char_eq, unescape?_escape]

/-! ### Atoms -/

/-- A field with a text behind it is read as the comparison with which the text begins. -/
theorem readAtom_field {field rest : List Char} (hne : field ≠ [])
    (hfield : ∀ c ∈ field, Text.isBlank c = false ∧ (! endsField c) = true)
    (hrest : Text.IsTrimmed rest) :
    readAtom (field ++ ' ' :: rest) =
      match Operator.ofText? rest with
      | none => .error (.unknownOperator (String.ofList field) (String.ofList rest))
      | some (operator, value) => do
        let value ← readValue (Text.trim value)
        return ⟨String.ofList (field.map Char.toLower), operator, value⟩ := by
  have htrimmed : Text.IsTrimmed (field ++ ' ' :: rest) := by
    have hends := (Text.Ends.of_forall hne fun c hc ↦ (hfield c hc).1).append [' '] hrest
    rwa [List.append_assoc] at hends
  have hin : ∀ c ∈ field, (! endsField c) = true := fun c hc ↦ (hfield c hc).2
  have htake : (field ++ ' ' :: rest).takeWhile (! endsField ·) = field := by
    rw [List.takeWhile_append_of_pos hin]
    exact List.append_nil field
  have hdrop : (field ++ ' ' :: rest).dropWhile (! endsField ·) = ' ' :: rest :=
    List.dropWhile_append_of_pos hin
  have hstart : Text.trimStart (' ' :: rest) = rest := by
    have hspace : ∀ c ∈ [' '], Text.isBlank c = true := List.forall_mem_singleton.mpr rfl
    exact (Text.trimStart_append hspace _).trans (Text.trimStart_of_head? hrest.first)
  have hrestNe : rest.isEmpty = false := List.isEmpty_eq_false_iff.mpr hrest.ne_nil
  rw [readAtom, htrimmed.trim_eq, htake, hdrop, hstart, if_neg (by simpa using hne), hrestNe]
  rfl

/-- What is written in quotes is not trimmed of more than the blank in front of it. -/
theorem trim_enclose (quote : Text.Quote) (value : List Char) :
    Text.trim (' ' :: quote.enclose value) = quote.enclose value := by
  have hspace : ∀ c ∈ [' '], Text.isBlank c = true := List.forall_mem_singleton.mpr rfl
  have htrimmed := (hasClauseEnds_enclose quote value).isTrimmed
  simpa using htrimmed.trim_append hspace (List.forall_mem_nil _)

/-- A field with an operator and a value in quotes is read as their comparison. -/
theorem readAtom_comparison (field : Field) {spelled value : List Char} {operator : Operator}
    {quote : Text.Quote} (hspelled : Text.IsTrimmed (spelled ++ ' ' :: quote.enclose value))
    (hoperator : Operator.ofText? (spelled ++ ' ' :: quote.enclose value) =
      some (operator, ' ' :: quote.enclose value)) :
    readAtom (field.chars ++ ' ' :: (spelled ++ ' ' :: quote.enclose value)) =
      .ok ⟨String.ofList field.chars, operator, String.ofList value⟩ := by
  rw [readAtom_field field.ne_nil (fun c hc ↦ ⟨field.notBlank c hc, field.endsField c hc⟩) hspelled,
    hoperator]
  dsimp only
  rw [trim_enclose, readValue_enclose, map_toLower field.isLow]
  rfl

/-- A clause is read as the atom that it stands for. -/
theorem readAtom_written (clause : Clause) : readAtom clause.written = .ok clause.atom := by
  cases clause with
  | present field =>
    have htrimmed := field.hasClauseEnds.isTrimmed
    have htake : field.chars.takeWhile (! endsField ·) = field.chars :=
      List.takeWhile_eq_self_iff.mpr field.endsField
    have hdrop : field.chars.dropWhile (! endsField ·) = [] :=
      List.dropWhile_eq_nil_iff.mpr field.endsField
    rw [Clause.written, readAtom, htrimmed.trim_eq, htake, hdrop, map_toLower field.isLow]
    simp [field.ne_nil, Clause.atom, Text.trimStart]
  | compares field spelling quote value =>
    exact readAtom_comparison field (hasClauseEnds_comparison spelling quote value).isTrimmed
      (Operator.ofText?_spelling spelling quote _)

/-! ### Groups -/

section Letter

variable {letter : Char} (hletter : letter.isUpper = true) (tail : List Char)

include hletter

private theorem exists_head_ne {cs : List Char} (h : HasClauseEnds cs) :
    ∃ c, cs.head? = some c ∧ c ≠ letter := by
  obtain ⟨c, hc, -, hupper⟩ := h.first
  refine ⟨c, hc, ?_⟩
  rintro rfl
  rw [hupper] at hletter
  contradiction

private theorem uncut_of_isLow {cs : List Char} (hends : HasClauseEnds cs)
    (h : ∀ c ∈ cs, IsLow c) : Uncut (' ' :: letter :: tail) cs := by
  apply uncut_of_forall
  · obtain ⟨c, hc, hblank⟩ := hends.last
    rw [hc]
    intro heq
    rw [Option.some.inj heq] at hblank
    contradiction
  · intro c hc
    refine ⟨?_, (h c hc).2⟩
    rintro rfl
    rw [(h c hc).1] at hletter
    contradiction

/-- No separator with a capital letter cuts a clause. -/
theorem uncut_written (clause : Clause) : Uncut (' ' :: letter :: tail) clause.written := by
  have hfield := fun field : Field ↦ uncut_of_isLow hletter tail field.hasClauseEnds field.isLow
  cases clause with
  | present field => exact hfield field
  | compares field spelling quote value =>
    have hspelling := uncut_of_isLow hletter tail spelling.hasClauseEnds spelling.isLow
    have hcomparison := hspelling.append_space (uncut_enclose _ quote value)
      (exists_head_ne hletter (hasClauseEnds_enclose quote value))
    exact (hfield field).append_space hcomparison
      (exists_head_ne hletter (hasClauseEnds_comparison spelling quote value))

end Letter

/-- A group is not cut where groups are separated. -/
theorem uncut_group {clauses : List Clause} (hne : clauses ≠ []) :
    Uncut (' ' :: 'O' :: ['R', ' ']) (group clauses) := by
  have hletter : 'O'.isUpper = true := rfl
  induction clauses with
  | nil => contradiction
  | cons clause clauses ih =>
    have hclause := uncut_written hletter ['R', ' '] clause
    cases clauses with
    | nil => rwa [group_singleton]
    | cons next clauses =>
      have hnext : next :: clauses ≠ [] := List.cons_ne_nil next clauses
      have hand : Uncut (' ' :: 'O' :: ['R', ' ']) ['A', 'N', 'D'] :=
        uncut_of_forall (by decide) (by simp)
      have hrest := hand.append_space (ih hnext)
        (exists_head_ne hletter (hasClauseEnds_group hnext))
      rw [group_cons_cons, List.append_assoc]
      exact hclause.append_space hrest ⟨'A', rfl, by decide⟩

private theorem mapM_map {α β γ ε : Type} {write : α → β} {read : β → Except ε γ} {mean : α → γ}
    {xs : List α} (h : ∀ x ∈ xs, read (write x) = .ok (mean x)) :
    (xs.map write).mapM read = .ok (xs.map mean) := by
  induction xs with
  | nil => rfl
  | cons x xs ih =>
    rw [List.forall_mem_cons] at h
    rw [List.map_cons, List.mapM_cons, h.1, ih h.2]
    rfl

/-- A group is read as the atoms of its clauses. -/
theorem readGroup_group {clauses : List Clause} (hne : clauses ≠ []) :
    readGroup (group clauses) = .ok (clauses.map Clause.atom) := by
  have hletter : 'A'.isUpper = true := rfl
  have huncut : ∀ piece ∈ clauses.map Clause.written, Uncut " AND ".toList piece := by
    intro piece hpiece
    obtain ⟨clause, -, rfl⟩ := List.mem_map.mp hpiece
    exact uncut_written hletter ['N', 'D', ' '] clause
  rw [readGroup, group, split_intercalate rfl (by simpa using hne) huncut,
    mapM_map fun clause _ ↦ readAtom_written clause]

/-! ### Conditions -/

/-- What has the ends of a clause is read group by group. -/
theorem read_of_hasClauseEnds {cs : List Char} (h : HasClauseEnds cs) :
    read (String.ofList cs) = do
      let groups ← (split " OR ".toList none 0 cs).mapM readGroup
      return ⟨groups⟩ := by
  have htext : (String.ofList cs).toList = cs := String.toList_ofList
  have hblank : Text.trim (String.ofList cs).toList ≠ [] := by
    rw [htext, h.isTrimmed.trim_eq]
    exact h.ne_nil
  rw [read_of_trim_ne_nil hblank, htext]

/-- A condition of one group is read as the atoms of its clauses. -/
theorem read_group {clauses : List Clause} (hne : clauses ≠ []) :
    read (String.ofList (group clauses)) = .ok ⟨[clauses.map Clause.atom]⟩ := by
  have hsplit : split " OR ".toList none 0 (group clauses) = [group clauses] :=
    (uncut_group hne).split_eq
  rw [read_of_hasClauseEnds (hasClauseEnds_group hne), hsplit]
  simp only [List.mapM_cons, List.mapM_nil, readGroup_group hne]
  rfl

/-- A condition is read as the groups of atoms that it was written from, whichever spellings of the
operators and whichever quotes were chosen and whatever the values hold. -/
theorem read_disjunction {groups : List (List Clause)} (hne : groups ≠ [])
    (hgroups : ∀ clauses ∈ groups, clauses ≠ []) :
    read (String.ofList (disjunction groups)) = .ok ⟨groups.map (·.map Clause.atom)⟩ := by
  have hpieces : groups.map group ≠ [] := by simpa using hne
  have huncut : ∀ piece ∈ groups.map group, Uncut " OR ".toList piece := by
    intro piece hpiece
    obtain ⟨clauses, hclauses, rfl⟩ := List.mem_map.mp hpiece
    exact uncut_group (hgroups clauses hclauses)
  have hends : HasClauseEnds (disjunction groups) := by
    apply hasClauseEnds_intercalate _ hpieces
    intro piece hpiece
    obtain ⟨clauses, hclauses, rfl⟩ := List.mem_map.mp hpiece
    exact hasClauseEnds_group (hgroups clauses hclauses)
  rw [read_of_hasClauseEnds hends, disjunction, split_intercalate rfl hpieces huncut,
    mapM_map fun clauses hclauses ↦ readGroup_group (hgroups clauses hclauses)]
  rfl

/-- An operator whose spelling begins another one, a value that begins like the rest of the longer
spelling, and values with both separators, a quote and a backslash. -/
theorem read_disjunction_shared :
    let name : Field := ⟨['c', '-', '1'], by decide, by simp [fieldChars]⟩
    let groups : List (List Clause) :=
      [[.compares name ⟨"contains", .contains, by decide⟩ .double "word x".toList, .present name],
        [.compares name ⟨"is less than or equals", .lessOrEqual, by decide⟩ .single
          "it's OR \\ AND \"".toList]]
    (groups ≠ [] ∧ ∀ clauses ∈ groups, clauses ≠ []) ∧
      String.ofList (disjunction groups) =
        "c-1 contains \"word x\" AND c-1 OR c-1 is less than or equals 'it\\'s OR \\\\ AND \"'" ∧
      read (String.ofList (disjunction groups)) =
        .ok ⟨[[⟨"c-1", .contains, "word x"⟩, ⟨"c-1", .present, ""⟩],
          [⟨"c-1", .lessOrEqual, "it's OR \\ AND \""⟩]]⟩ := by
  intro name groups
  have hne : groups ≠ [] := by simp [groups]
  have hgroups : ∀ clauses ∈ groups, clauses ≠ [] := by simp [groups]
  exact ⟨⟨hne, hgroups⟩, by decide, read_disjunction hne hgroups⟩

end Condition

end MarkupSelect
