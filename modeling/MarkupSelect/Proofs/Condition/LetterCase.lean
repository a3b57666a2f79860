import MarkupSelect.Proofs.Condition.Joined
import MarkupSelect.Proofs.Condition.Written

/-!
# Letter case in conditions

A spelling of an operator is found in any letter case, but a condition is cut at ` OR ` before
operators are looked for. So a comparison is read alike in every letter case unless its spelling
holds an ` OR ` in capital letters: then the text behind it is no clause.
-/

namespace MarkupSelect

/-! ### Operators -/

namespace Operator

variable {text other rest : List Char} {operator : Operator}

/-- Words end at the same characters in every letter case. -/
theorem endsWord_toLower (c : Char) : endsWord c.toLower = endsWord c := by
  simp only [endsWord, Text.isAsciiBlank]
  repeat rw [Text.toLower_beq rfl]

/-- Spellings are found in texts that are the same up to letter case alike. -/
theorem isSpelled_of_toLower (h : text.map Char.toLower = other.map Char.toLower)
    (spelling : List Char) : isSpelled spelling text = isSpelled spelling other := by
  have hends : ∀ text : List Char, (text.drop spelling.length).head?.all endsWord =
      ((text.map Char.toLower).drop spelling.length).head?.all endsWord := by
    intro text
    rw [← List.map_drop]
    cases text.drop spelling.length with
    | nil => rfl
    | cons c rest => exact (endsWord_toLower c).symm
  rw [isSpelled, isSpelled, List.map_take, List.map_take, hends text, hends other, h]

/-- Texts that are the same up to letter case begin with the same operator, and as much is left of
both. -/
theorem ofText?_of_toLower (h : text.map Char.toLower = other.map Char.toLower)
    (htext : ofText? text = some (operator, rest)) :
    ofText? other = some (operator, other.drop (text.length - rest.length)) := by
  have hspelled : ∀ a ∈ aliases, isSpelled a.1.toList other = isSpelled a.1.toList text :=
    fun a _ ↦ (isSpelled_of_toLower h a.1.toList).symm
  have hlength : text.length = other.length := by simpa using congrArg List.length h
  rw [ofText?, List.filter_congr hspelled]
  obtain ⟨a, ha, hrest⟩ := Option.map_eq_some_iff.mp htext
  cases hrest
  rw [ha, Option.map_some, Option.some_inj, Prod.mk.injEq]
  refine ⟨rfl, ?_⟩
  rw [List.drop_eq_drop_iff, List.length_drop, hlength]
  omega

/-- No operator begins with a quote. -/
theorem ofText?_enclose (quote : Text.Quote) (value : List Char) :
    ofText? (quote.enclose value) = none := by
  have hmem : quote ∈ [Text.Quote.single, .double] := by
    cases quote <;> decide
  have hnone : ∀ quote ∈ [Text.Quote.single, .double], ∀ a ∈ aliases,
      isSpelled a.1.toList [quote.char] = false := by decide
  have hspelled : ∀ a ∈ aliases, isSpelled a.1.toList (quote.enclose value) = false := by
    intro a ha
    have hnot := toLower_quote_not_mem ⟨a.1, a.2, ha⟩ quote
    have happend :=
      isSpelled_append_cons hnot [] (Text.escape quote.isSpecial value ++ [quote.char])
    exact happend.trans (hnone quote hmem a ha)
  have hfilter : aliases.filter (fun a ↦ isSpelled a.1.toList (quote.enclose value)) = [] :=
    List.filter_eq_nil_iff.mpr fun a ha ↦ Bool.eq_false_iff.mp (hspelled a ha)
  rw [ofText?, hfilter]
  rfl

end Operator

/-! ### Spellings in any letter case -/

namespace Grammar

/-- The characters of a spelling of an operator in some letter case. -/
structure Cased (spelling : Spelling) where
  chars : List Char
  toLower : chars.map Char.toLower = spelling.text.toList

/-- Where conditions are cut. -/
def separators : List (List Char) := [" AND ".toList, " OR ".toList]

/-- The connective of atoms is a separator. -/
theorem and_mem_separators : " AND ".toList ∈ separators := List.mem_cons_self

/-- The connective of groups is a separator. -/
theorem or_mem_separators : " OR ".toList ∈ separators := List.mem_cons_of_mem _ List.mem_cons_self

private theorem separators_facts : ∀ separator ∈ separators,
    separator ≠ [] ∧ separator.length ≤ 5 ∧
      (separator.all fun c ↦ decide (c ≠ '"' ∧ c ≠ '\'')) = true := by
  decide

private theorem aliases_apart : ∀ a ∈ Operator.aliases,
    Operator.ofText? a.1.toList = some (a.2, []) ∧
      a.1.toList.head?.any (fun c ↦ c != 'a' && c != 'o') = true ∧
      ¬ " AND ".toList.map Char.toLower <:+: a.1.toList ∧
      ∀ separator ∈ separators, ∀ n ∈ [1, 2, 3, 4],
        ¬ (separator.take n).map Char.toLower <:+ a.1.toList := by
  decide +kernel

private theorem aliases_or : ∀ a ∈ Operator.aliases, ∀ n ∈ List.range a.1.toList.length,
    " OR ".toList.map Char.toLower <+: a.1.toList.drop n →
      (∃ b ∈ Operator.aliases, b.1.toList = a.1.toList.take n ∧
        ¬ " OR ".toList.map Char.toLower <:+: b.1.toList) ∧
      a.1.toList.drop (n + 4) = "equals".toList := by
  -- Two spellings hold the connective, each between another spelling and `equals`.
  decide +kernel

variable {spelling : Spelling}

namespace Cased

/-- A spelling has as many characters in every letter case. -/
theorem length_chars (written : Cased spelling) :
    written.chars.length = spelling.text.toList.length := by
  rw [← written.toLower, List.length_map]

/-- In every letter case a spelling is read as its operator. -/
theorem ofText?_eq (written : Cased spelling) (quote : Text.Quote) (rest : List Char) :
    Operator.ofText? (written.chars ++ ' ' :: quote.char :: rest) =
      some (spelling.operator, ' ' :: quote.char :: rest) := by
  have hlower : (spelling.text.toList ++ ' ' :: quote.char :: rest).map Char.toLower =
      (written.chars ++ ' ' :: quote.char :: rest).map Char.toLower := by
    rw [List.map_append, List.map_append, written.toLower, map_toLower spelling.isLow]
  rw [Operator.ofText?_of_toLower hlower (Operator.ofText?_spelling spelling quote rest),
    List.length_append, Nat.add_sub_cancel, List.drop_left' written.length_chars]

/-- In every letter case a spelling without anything behind it is read as its operator. -/
theorem ofText?_chars (written : Cased spelling) :
    Operator.ofText? written.chars = some (spelling.operator, []) := by
  have hlower : spelling.text.toList.map Char.toLower = written.chars.map Char.toLower := by
    rw [written.toLower, map_toLower spelling.isLow]
  have halone : Operator.ofText? spelling.text.toList = some (spelling.operator, []) :=
    (aliases_apart (spelling.text, spelling.operator) spelling.mem).1
  rw [Operator.ofText?_of_toLower hlower halone, List.length_nil, Nat.sub_zero,
    ← written.length_chars, List.drop_length]

/-- What can be checked of all characters of a spelling in lower case. -/
theorem forall_of_toLower {P : Char → Prop} (written : Cased spelling)
    (h : ∀ c ∈ spelling.text.toList, P c) : ∀ c ∈ written.chars, P c.toLower := by
  intro c hc
  apply h
  rw [← written.toLower]
  exact List.mem_map_of_mem hc

/-- There is no quote in a spelling. -/
theorem ne_quote (written : Cased spelling) : ∀ c ∈ written.chars, c ≠ '"' ∧ c ≠ '\'' := by
  intro c hc
  obtain ⟨-, hdouble, hsingle⟩ := written.forall_of_toLower spelling.isLow c hc
  constructor
  · rintro rfl
    exact hdouble rfl
  · rintro rfl
    exact hsingle rfl

/-- What a spelling in lower case does not hold it does not hold in any letter case. -/
theorem not_isInfix (written : Cased spelling) {cs : List Char}
    (h : ¬ cs.map Char.toLower <:+: spelling.text.toList) : ¬ cs <:+: written.chars := by
  intro hinside
  apply h
  rw [← written.toLower]
  exact hinside.map Char.toLower

/-- A spelling has no blank at either end. -/
theorem isTrimmed (written : Cased spelling) : Text.IsTrimmed written.chars := by
  have htrimmed := spelling.hasClauseEnds.isTrimmed
  rw [← written.toLower] at htrimmed
  obtain ⟨⟨c, hc, hfirst⟩, d, hd, hlast⟩ := htrimmed
  rw [List.head?_map] at hc
  rw [List.getLast?_map] at hd
  obtain ⟨b, hb, rfl⟩ := Option.map_eq_some_iff.mp hc
  obtain ⟨e, he, rfl⟩ := Option.map_eq_some_iff.mp hd
  rw [Text.isBlank_toLower] at hfirst hlast
  exact ⟨⟨b, hb, hfirst⟩, e, he, hlast⟩

/-- A spelling does not begin with a letter with which a connective begins. -/
theorem exists_head (written : Cased spelling) :
    ∃ c, written.chars.head? = some c ∧ c ≠ 'A' ∧ c ≠ 'O' := by
  obtain ⟨-, hhead, -⟩ := aliases_apart (spelling.text, spelling.operator) spelling.mem
  rw [show (spelling.text, spelling.operator).1.toList = written.chars.map Char.toLower from
    written.toLower.symm, List.head?_map] at hhead
  obtain ⟨d, hd, hne⟩ := (Option.any_eq_true _ _).mp hhead
  obtain ⟨c, hc, rfl⟩ := Option.map_eq_some_iff.mp hd
  rw [Bool.and_eq_true, bne_iff_ne, bne_iff_ne] at hne
  refine ⟨c, hc, ?_, ?_⟩
  · rintro rfl
    exact hne.1 rfl
  · rintro rfl
    exact hne.2 rfl

/-- The spelling with a value in quotes behind it. -/
def comparison (written : Cased spelling) (quote : Text.Quote) (value : List Char) : List Char :=
  written.chars ++ ' ' :: quote.enclose value

/-- A comparison has no blank at either end. -/
theorem isTrimmed_comparison (written : Cased spelling) (quote : Text.Quote) (value : List Char) :
    Text.IsTrimmed (written.comparison quote value) := by
  have hends := written.isTrimmed.append [' '] (hasClauseEnds_enclose quote value).isTrimmed
  rwa [List.append_assoc] at hends

/-- Around an ` OR ` in capital letters a spelling consists of two others. -/
theorem exists_of_or (written : Cased spelling) {before after : List Char}
    (h : written.chars = before ++ " OR ".toList ++ after) :
    (∃ (other : Spelling) (cased : Cased other), cased.chars = before ∧
      ¬ " OR ".toList <:+: before) ∧ after.map Char.toLower = "equals".toList := by
  have hlower : spelling.text.toList =
      before.map Char.toLower ++ (" OR ".toList.map Char.toLower ++ after.map Char.toLower) := by
    rw [← written.toLower, h, List.map_append, List.map_append, List.append_assoc]
  have hlength : (before.map Char.toLower).length = before.length := List.length_map _
  have hmem : before.length ∈ List.range spelling.text.toList.length := by
    rw [List.mem_range, hlower, List.length_append, hlength]
    exact Nat.lt_add_of_pos_right (by simp)
  have hleads : " OR ".toList.map Char.toLower <+: spelling.text.toList.drop before.length := by
    rw [hlower, List.drop_left' hlength]
    exact List.prefix_append _ _
  obtain ⟨⟨b, hb, htake, hinside⟩, hdrop⟩ :=
    aliases_or (spelling.text, spelling.operator) spelling.mem _ hmem hleads
  dsimp only at htake hdrop
  rw [hlower, List.take_left' hlength] at htake
  rw [hlower, ← List.drop_drop, List.drop_left' hlength] at hdrop
  refine ⟨⟨⟨b.1, b.2, hb⟩, ⟨before, htake.symm⟩, rfl, ?_⟩, hdrop⟩
  intro hor
  apply hinside
  rw [htake]
  exact hor.map Char.toLower

end Cased

end Grammar

namespace Condition

open Grammar

variable {spelling : Spelling} {separator cs ds : List Char}

/-! ### Texts that are not cut -/

/-- A text without quotes is not cut if it holds no separator and none begins at its end. -/
theorem uncut_of_not_isInfix (hne : separator ≠ []) (hsep : ∀ c ∈ separator, c ≠ '"' ∧ c ≠ '\'')
    (hquote : ∀ c ∈ cs, c ≠ '"' ∧ c ≠ '\'') (hinside : ¬ separator <:+: cs)
    (hend : ∀ n, 0 < n → n < separator.length → ¬ separator.take n <:+ cs) :
    Uncut separator cs := by
  intro rest
  have hsplit := split_of_not_isInfix hne hinside
  have hclosed : openQuote none cs = none := by
    have happend := openQuote_append hquote []
    rwa [List.append_nil] at happend
  rw [split_append hne hsep none 0 cs (Nat.zero_le _) hclosed, hsplit, glue]
  rintro ⟨n, hpos, hn, ⟨piece, hpiece, hsuffix⟩, -⟩
  rw [hsplit] at hpiece
  cases hpiece
  exact hend n hpos hn hsuffix

/-- A blank between texts that are not cut is not cut, unless the second begins with a letter with
which a connective begins. -/
theorem Uncut.append_blank (hsep : separator ∈ separators)
    (h : Uncut separator cs) (hds : Uncut separator ds)
    (hfirst : ∃ c, ds.head? = some c ∧ c ≠ 'A' ∧ c ≠ 'O') : Uncut separator (cs ++ ' ' :: ds) := by
  obtain ⟨c, hc, hA, hO⟩ := hfirst
  simp only [separators, List.mem_cons, List.not_mem_nil, or_false] at hsep
  obtain rfl | rfl := hsep
  · exact h.append_space hds ⟨c, hc, hA⟩
  · exact h.append_space hds ⟨c, hc, hO⟩

/-- A spelling is not cut, unless it holds the separator in the letter case in which it is
written. -/
theorem uncut_cased (hsep : separator ∈ separators) (written : Cased spelling)
    (h : ¬ separator <:+: written.chars) : Uncut separator written.chars := by
  obtain ⟨-, -, -, hcut⟩ := aliases_apart (spelling.text, spelling.operator) spelling.mem
  obtain ⟨hne, hlength, hquote⟩ := separators_facts separator hsep
  apply uncut_of_not_isInfix hne (List.all_iff_forall_prop.mp hquote) written.ne_quote h
  intro n hpos hn hsuffix
  have hmem : n ∈ [1, 2, 3, 4] := by
    simp only [List.mem_cons, List.not_mem_nil, or_false]
    omega
  apply hcut separator hsep n hmem
  have hlower := hsuffix.map Char.toLower
  rwa [written.toLower] at hlower

/-- A spelling is not cut at ` AND `, which no spelling holds in any letter case. -/
theorem uncut_and_cased (written : Cased spelling) : Uncut " AND ".toList written.chars := by
  obtain ⟨-, -, hand, -⟩ := aliases_apart (spelling.text, spelling.operator) spelling.mem
  exact uncut_cased and_mem_separators written (written.not_isInfix hand)

/-- A field is not cut. -/
theorem uncut_field (hsep : separator ∈ separators) (field : Field) :
    Uncut separator field.chars := by
  simp only [separators, List.mem_cons, List.not_mem_nil, or_false] at hsep
  obtain rfl | rfl := hsep
  · exact uncut_written rfl ['N', 'D', ' '] (.present field)
  · exact uncut_written rfl ['R', ' '] (.present field)

/-- A comparison is not cut if its spelling is not. -/
theorem uncut_comparison (hsep : separator ∈ separators) (written : Cased spelling)
    (h : Uncut separator written.chars) (quote : Text.Quote) (value : List Char) :
    Uncut separator (written.comparison quote value) := by
  apply h.append_blank hsep (uncut_enclose separator quote value)
  refine ⟨quote.char, rfl, ?_⟩
  cases quote <;> decide

/-! ### Reading -/

/-- A field ends at the same characters in every letter case. -/
theorem endsField_toLower (c : Char) : endsField c.toLower = endsField c := by
  rw [endsField, endsField, Text.contains_toLower (by decide)]
  simp only [Text.isAsciiBlank]
  repeat rw [Text.toLower_beq rfl]

private theorem readGroup_of_uncut {atom : Atom} (h : Uncut " AND ".toList cs)
    (hread : readAtom cs = .ok atom) : readGroup cs = .ok [atom] := by
  rw [readGroup, h.split_eq, List.mapM_cons, hread]
  rfl

private theorem hasClauseEnds_cased (field : Field) (written : Cased spelling) (quote : Text.Quote)
    (value : List Char) :
    HasClauseEnds (field.chars ++ ' ' :: written.comparison quote value) := by
  have hends := field.hasClauseEnds.append [' '] (written.isTrimmed_comparison quote value)
  rwa [List.append_assoc] at hends

/-- A comparison is read alike in every letter case of its spelling, unless that holds an ` OR ` in
capital letters. -/
theorem read_cased (field : Field) (written : Cased spelling) (quote : Text.Quote)
    (value : List Char) (h : ¬ " OR ".toList <:+: written.chars) :
    read (String.ofList (field.chars ++ ' ' :: written.comparison quote value)) =
      .ok ⟨[[(Clause.compares field spelling quote value).atom]]⟩ := by
  have huncut : ∀ separator ∈ separators, Uncut separator written.chars →
      Uncut separator (field.chars ++ ' ' :: written.comparison quote value) := by
    intro separator hsep hchars
    apply (uncut_field hsep field).append_blank hsep (uncut_comparison hsep written hchars _ _)
    obtain ⟨c, hc, hne⟩ := written.exists_head
    exact ⟨c, by rw [Cased.comparison, List.head?_append, hc, Option.some_or], hne⟩
  have hatom : readAtom (field.chars ++ ' ' :: written.comparison quote value) =
      .ok (Clause.compares field spelling quote value).atom :=
    readAtom_comparison field (written.isTrimmed_comparison quote value)
      (written.ofText?_eq quote _)
  have hgroup := readGroup_of_uncut
    (huncut _ and_mem_separators (uncut_and_cased written)) hatom
  have hsplit := (huncut _ or_mem_separators
    (uncut_cased or_mem_separators written h)).split_eq
  rw [read_of_hasClauseEnds (hasClauseEnds_cased field written quote value), hsplit,
    List.mapM_cons, hgroup]
  rfl

/-! ### Reading where the spelling is cut -/

/-- A field with a spelling behind it is not cut if the spelling is not. -/
theorem uncut_field_cased (hsep : separator ∈ separators) (field : Field)
    (written : Cased spelling) (h : Uncut separator written.chars) :
    Uncut separator (field.chars ++ ' ' :: written.chars) :=
  (uncut_field hsep field).append_blank hsep h written.exists_head

/-- Without a value a field is compared with the empty text. -/
theorem readGroup_field_cased (field : Field) (written : Cased spelling) :
    readGroup (field.chars ++ ' ' :: written.chars) =
      .ok [⟨String.ofList field.chars, spelling.operator, ""⟩] := by
  apply readGroup_of_uncut
    (uncut_field_cased and_mem_separators field written (uncut_and_cased written))
  rw [readAtom_field field.ne_nil (fun c hc ↦ ⟨field.notBlank c hc, field.endsField c hc⟩)
    written.isTrimmed, written.ofText?_chars, map_toLower field.isLow]
  rfl

/-- The spelling `equals` at the beginning of a text is a field, behind which no operator stands. -/
theorem readGroup_equals (written : Cased ⟨"equals", .equals, by decide⟩) (quote : Text.Quote)
    (value : List Char) :
    readGroup (written.comparison quote value) =
      .error (.unknownOperator (String.ofList written.chars)
        (String.ofList (quote.enclose value))) := by
  have hfield : ∀ c ∈ written.chars, Text.isBlank c = false ∧ (! endsField c) = true := by
    intro c hc
    have hequals : ∀ c ∈ "equals".toList, Text.isBlank c = false ∧ (! endsField c) = true :=
      List.all_iff_forall_prop.mp (by decide)
    have hlower := written.forall_of_toLower hequals c hc
    rwa [Text.isBlank_toLower, endsField_toLower] at hlower
  have hatom : readAtom (written.comparison quote value) =
      .error (.unknownOperator (String.ofList written.chars)
        (String.ofList (quote.enclose value))) := by
    rw [Cased.comparison, readAtom_field written.isTrimmed.ne_nil hfield
      (hasClauseEnds_enclose quote value).isTrimmed, Operator.ofText?_enclose]
  have huncut := uncut_comparison and_mem_separators written (uncut_and_cased written) quote value
  rw [readGroup, huncut.split_eq, List.mapM_cons, hatom]
  rfl

/-- Behind an ` OR ` in capital letters in the spelling of a comparison there is no clause. -/
theorem read_cased_of_or (field : Field) (written : Cased spelling) (quote : Text.Quote)
    (value : List Char) {before after : List Char}
    (h : written.chars = before ++ " OR ".toList ++ after) :
    read (String.ofList (field.chars ++ ' ' :: written.comparison quote value)) =
      .error (.unknownOperator (String.ofList after) (String.ofList (quote.enclose value))) := by
  obtain ⟨⟨other, front, rfl, hfront⟩, hafter⟩ := written.exists_of_or h
  let behind : Cased ⟨"equals", .equals, by decide⟩ := ⟨after, hafter⟩
  have hbehind : ¬ " OR ".toList <:+: behind.chars := behind.not_isInfix (by decide +kernel)
  -- The text in front of the cut is a clause, and the text behind it is none.
  have hpieces : field.chars ++ ' ' :: written.comparison quote value =
      " OR ".toList.intercalate
        [field.chars ++ ' ' :: front.chars, behind.comparison quote value] := by
    rw [List.intercalate_cons_cons, List.intercalate_singleton, Cased.comparison, h,
      Cased.comparison]
    simp [behind]
  have huncut : ∀ piece ∈ [field.chars ++ ' ' :: front.chars, behind.comparison quote value],
      Uncut " OR ".toList piece := by
    simp only [List.forall_mem_cons, List.not_mem_nil, false_imp_iff, implies_true, and_true]
    constructor
    · exact uncut_field_cased or_mem_separators field front
        (uncut_cased or_mem_separators front hfront)
    · exact uncut_comparison or_mem_separators behind
        (uncut_cased or_mem_separators behind hbehind) quote value
  rw [read_of_hasClauseEnds (hasClauseEnds_cased field written quote value), hpieces,
    split_intercalate rfl (List.cons_ne_nil _ _) huncut, List.mapM_cons, readGroup_field_cased,
    List.mapM_cons, readGroup_equals]
  rfl

/-- Which letter case the words of an operator are written in does not matter to what a comparison
is read as, unless they hold an ` OR ` in capital letters; then the comparison is cut there, and the
words behind the cut are a field without an operator. -/
theorem read_letterCase (field : Field) (written : Cased spelling) (quote : Text.Quote)
    (value : List Char) :
    (¬ " OR ".toList <:+: written.chars →
      read (String.ofList (field.chars ++ ' ' :: written.comparison quote value)) =
          .ok ⟨[[(Clause.compares field spelling quote value).atom]]⟩ ∧
        read (String.ofList (field.chars ++ ' ' :: written.comparison quote value)) =
          read (String.ofList (Clause.compares field spelling quote value).written)) ∧
      ∀ before after, written.chars = before ++ " OR ".toList ++ after →
        read (String.ofList (field.chars ++ ' ' :: written.comparison quote value)) =
          .error (.unknownOperator (String.ofList after)
            (String.ofList (quote.enclose value))) := by
  constructor
  · intro h
    have hread := read_cased field written quote value h
    have hplain := read_group (List.cons_ne_nil (Clause.compares field spelling quote value) [])
    rw [group_singleton] at hplain
    exact ⟨hread, hread.trans hplain.symm⟩
  · intro before after h
    exact read_cased_of_or field written quote value h

/-- Words in capital letters that begin other words, and words that are cut. -/
theorem read_letterCase_mixed :
    let field : Field := ⟨['a'], List.cons_ne_nil _ _, by simp [fieldChars]⟩
    let contains : Cased ⟨"contains any word", .anyWord, by decide⟩ :=
      ⟨"Contains ANY word".toList, by decide⟩
    let order : Cased ⟨"is less than or equals", .lessOrEqual, by decide⟩ :=
      ⟨"IS less THAN OR equals".toList, by decide⟩
    (¬ " OR ".toList <:+: contains.chars ∧
        order.chars = "IS less THAN".toList ++ " OR ".toList ++ "equals".toList) ∧
      read (String.ofList (field.chars ++ ' ' :: contains.comparison .single "x OR y".toList)) =
          .ok ⟨[[⟨"a", .anyWord, "x OR y"⟩]]⟩ ∧
        read (String.ofList (field.chars ++ ' ' :: order.comparison .double "x".toList)) =
          .error (.unknownOperator "equals" "\"x\"") := by
  intro field contains order
  have hcontains : ¬ " OR ".toList <:+: contains.chars := by decide +kernel
  have horder : order.chars = "IS less THAN".toList ++ " OR ".toList ++ "equals".toList := rfl
  exact ⟨⟨hcontains, horder⟩, ((read_letterCase field contains _ _).1 hcontains).1,
    (read_letterCase field order _ _).2 _ _ horder⟩

/-- The same comparison in small letters and in capital letters. -/
theorem read_letterCase_or_ne :
    read "a is less than or equals 'x'" = .ok ⟨[[⟨"a", .lessOrEqual, "x"⟩]]⟩ ∧
      read "a IS LESS THAN OR EQUALS 'x'" = .error (.unknownOperator "EQUALS" "'x'") := by
  decide +kernel

end Condition

end MarkupSelect
