import MarkupSelect.Condition.Reading
import MarkupSelect.Proofs.Text.Escape

/-!
# Splitting conditions

The separators of conditions begin with a blank and a capital letter. A text that is not cut,
whatever follows it, stays in one piece: a text without quotes in which no such letter occurs, a
text in quotes, and two of these with a blank between them. Pieces that are not cut come back from
the text in which they are joined by the separator.
-/

namespace MarkupSelect.Condition

variable {separator cs ds rest : List Char} {letter : Char}

/-- A text that is not blank is read piece by piece. -/
theorem read_of_trim_ne_nil {text : String} (h : Text.trim text.toList ≠ []) :
    read text = do
      let groups ← (split " OR ".toList none 0 text.toList).mapM readGroup
      return ⟨groups⟩ := by
  rw [read, if_neg (by simpa using h)]

/-! ### Texts that are not cut -/

/-- A text is not cut, whatever follows it. -/
def Uncut (separator cs : List Char) : Prop :=
  ∀ rest, split separator none 0 (cs ++ rest) = cs.foldr extend (split separator none 0 rest)

/-- Texts that are not cut are not cut when one stands behind the other. -/
theorem Uncut.append (h : Uncut separator cs) (hds : Uncut separator ds) :
    Uncut separator (cs ++ ds) := by
  intro rest
  rw [List.append_assoc, h, hds, List.foldr_append]

/-- Characters in front of a piece are in front of the first piece. -/
theorem foldr_extend (cs piece : List Char) (pieces : List (List Char)) :
    cs.foldr extend (piece :: pieces) = (cs ++ piece) :: pieces := by
  induction cs with
  | nil => rfl
  | cons c cs ih =>
    rw [List.foldr_cons, ih]
    rfl

/-- A text that is not cut is the only piece of itself. -/
theorem Uncut.split_eq (h : Uncut separator cs) : split separator none 0 cs = [cs] := by
  have hself := h []
  rw [List.append_nil] at hself
  rw [hself, split, foldr_extend, List.append_nil]

/-- A character that is no quote and begins no separator is not cut. -/
theorem split_cons {c : Char} (hquote : c ≠ '"' ∧ c ≠ '\'')
    (h : separator.isPrefixOf (c :: rest) = false) :
    split separator none 0 (c :: rest) = extend c (split separator none 0 rest) := by
  simp [split, hquote, h]

/-- In quotes everything up to the closing one is in one piece. -/
theorem split_escape (separator : List Char) (quote : Text.Quote) (cs rest : List Char) :
    split separator (some quote.char) 0 (Text.escape quote.isSpecial cs ++ quote.char :: rest) =
      (Text.escape quote.isSpecial cs ++ [quote.char]).foldr extend
        (split separator none 0 rest) := by
  induction cs with
  | nil => simp [split, quote.char_ne_backslash]
  | cons c cs ih =>
    rw [Text.escape_cons]
    cases hc : quote.isSpecial c with
    | true =>
      simp only [if_pos, List.cons_append, List.nil_append, split, ih]
      rfl
    | false =>
      obtain ⟨hquote, hback⟩ := Text.Quote.isSpecial_eq_false_iff.mp hc
      have hstep : ∀ text, split separator (some quote.char) 0 (c :: text) =
          extend c (split separator (some quote.char) 0 text) := by
        intro text
        simp [split, hquote, hback]
      simp only [Bool.false_eq_true, if_false, List.cons_append, List.nil_append, hstep, ih]
      rfl

/-- A text in quotes is not cut. -/
theorem uncut_enclose (separator : List Char) (quote : Text.Quote) (cs : List Char) :
    Uncut separator (quote.enclose cs) := by
  intro rest
  have hopen : ∀ text, split separator none 0 (quote.char :: text) =
      extend quote.char (split separator (some quote.char) 0 text) := by
    intro text
    simp [split, quote.char_eq]
  rw [Text.Quote.enclose, List.cons_append, List.cons_append, List.append_assoc,
    List.singleton_append, hopen, split_escape]
  rfl

section Letter

variable {tail : List Char}

private theorem split_space {c : Char} (h : c ≠ letter) (rest : List Char) :
    split (' ' :: letter :: tail) none 0 (' ' :: c :: rest) =
      extend ' ' (split (' ' :: letter :: tail) none 0 (c :: rest)) := by
  apply split_cons (by decide)
  simp [List.isPrefixOf_cons_cons, Ne.symm h]

/-- A text without quotes and without the letter of the separator is not cut, if there is no blank
at its end. -/
theorem uncut_of_forall (hlast : cs.getLast? ≠ some ' ')
    (h : ∀ c ∈ cs, c ≠ letter ∧ c ≠ '"' ∧ c ≠ '\'') : Uncut (' ' :: letter :: tail) cs := by
  intro rest
  induction cs with
  | nil => rfl
  | cons c cs ih =>
    rw [List.forall_mem_cons] at h
    have hrest : cs.getLast? ≠ some ' ' := by
      intro hspace
      rw [List.getLast?_cons, hspace] at hlast
      exact hlast rfl
    rw [List.cons_append, List.foldr_cons, ← ih hrest h.2]
    by_cases hc : c = ' '
    · subst hc
      cases cs with
      | nil => exact absurd rfl hlast
      | cons d cs => exact split_space (h.2 d List.mem_cons_self).1 _
    · apply split_cons h.1.2
      simp [List.isPrefixOf_cons_cons, Ne.symm hc]

/-- Two texts that are not cut are not cut with a blank between them, unless the second begins with
the letter of the separator. -/
theorem Uncut.append_space (h : Uncut (' ' :: letter :: tail) cs)
    (hds : Uncut (' ' :: letter :: tail) ds) (hfirst : ∃ c, ds.head? = some c ∧ c ≠ letter) :
    Uncut (' ' :: letter :: tail) (cs ++ ' ' :: ds) := by
  obtain ⟨c, hc, hne⟩ := hfirst
  obtain ⟨ds, rfl⟩ := List.head?_eq_some_iff.mp hc
  apply h.append
  intro rest
  rw [List.cons_append, List.cons_append, split_space hne, ← List.cons_append, hds]
  rfl

end Letter

/-! ### Joined pieces -/

private theorem split_skip (separator cs rest : List Char) :
    split separator none cs.length (cs ++ rest) = split separator none 0 rest := by
  induction cs with
  | nil => rfl
  | cons c cs ih => exact ih

/-- At a separator a piece ends. -/
theorem split_separator (hne : separator.head? = some ' ') (rest : List Char) :
    split separator none 0 (separator ++ rest) = [] :: split separator none 0 rest := by
  obtain ⟨tail, rfl⟩ := List.head?_eq_some_iff.mp hne
  have hprefix : (' ' :: tail).isPrefixOf (' ' :: (tail ++ rest)) = true := by
    rw [List.isPrefixOf_iff_prefix]
    exact List.prefix_append (' ' :: tail) rest
  rw [List.cons_append, split, if_neg (by decide), if_pos hprefix, List.length_cons,
    Nat.add_sub_cancel, split_skip]

/-- Pieces that are not cut come back from the text in which the separator joins them. -/
theorem split_intercalate (hne : separator.head? = some ' ') {pieces : List (List Char)}
    (hpieces : pieces ≠ []) (h : ∀ piece ∈ pieces, Uncut separator piece) :
    split separator none 0 (separator.intercalate pieces) = pieces := by
  induction pieces with
  | nil => contradiction
  | cons piece pieces ih =>
    rw [List.forall_mem_cons] at h
    cases pieces with
    | nil => simpa using h.1.split_eq
    | cons next pieces =>
      rw [List.intercalate_cons_cons, List.append_assoc, h.1, split_separator hne,
        ih (List.cons_ne_nil _ _) h.2, foldr_extend, List.append_nil]

end MarkupSelect.Condition
