import Mathlib.Data.Bool.AllAny
import MarkupSelect.Proofs.Text.Escape
import MarkupSelect.Selector.Compile

/-!
# Lexemes of texts in a row

Only a backslash at the end of a text can change how the text behind it is taken apart. So the
lexemes of texts written one behind the other are those of each, and an escaped text has a lexeme
for each of its characters.
-/

namespace MarkupSelect

namespace CharKind

/-- A blank is not kept as punctuation. -/
theorem isReserved_of_isBlank {c : Char} (h : Text.isBlank c = true) : isReserved c = false := by
  have hall : ∀ c ∈ Text.blanks, isReserved c = false := List.all_iff_forall_prop.mp (by decide)
  exact hall c (List.contains_iff_mem.mp h)

/-- A blank is of the kind of blanks. -/
theorem ofChar_of_isBlank {c : Char} (h : Text.isBlank c = true) : ofChar c = .space := by
  simp [ofChar, isReserved_of_isBlank h, h]

/-- A character that is neither kept as punctuation nor a blank stands for itself. -/
theorem ofChar_of_plain {c : Char} (hreserved : isReserved c = false)
    (hblank : Text.isBlank c = false) : ofChar c = .literal := by
  simp [ofChar, hreserved, hblank]

/-- A character kept as punctuation has a meaning of its own. -/
theorem ofChar_of_isReserved {c : Char} (h : isReserved c = true) : ofChar c = .punctuation := by
  simp [ofChar, h]

/-- What is not kept as punctuation is no backslash. -/
theorem ne_backslash_of_isReserved {c : Char} (h : isReserved c = false) : c ≠ '\\' := by
  rintro rfl
  contradiction

/-- A blank is no backslash. -/
theorem ne_backslash_of_isBlank {c : Char} (h : Text.isBlank c = true) : c ≠ '\\' :=
  ne_backslash_of_isReserved (isReserved_of_isBlank h)

end CharKind

namespace Lexeme

variable {cs ds : List Char}

/-- A character that is no backslash is a lexeme by itself. -/
theorem ofText_cons {c : Char} (h : c ≠ '\\') (cs : List Char) :
    ofText (c :: cs) = ⟨CharKind.ofChar c, c⟩ :: ofText cs := by
  cases cs with
  | nil => rfl
  | cons d cs => simp [ofText, h]

/-- A backslash in front of a reserved character makes a literal of it. -/
theorem ofText_backslash {c : Char} (h : CharKind.isReserved c = true) (cs : List Char) :
    ofText ('\\' :: c :: cs) = ⟨.literal, c⟩ :: ofText cs := by
  simp [ofText, h]

/-- A text begins with its first character as a lexeme, or with what a backslash makes a literal. -/
theorem exists_ofText_cons (c : Char) (cs : List Char) :
    ∃ l ls, ofText (c :: cs) = l :: ls ∧
      (l = ⟨CharKind.ofChar c, c⟩ ∨ c = '\\' ∧ l.kind = .literal) := by
  cases cs with
  | nil => exact ⟨_, _, rfl, .inl rfl⟩
  | cons d cs =>
    by_cases hescape : (c = '\\' && CharKind.isReserved d) = true
    · refine ⟨_, _, if_pos hescape, .inr ⟨?_, rfl⟩⟩
      rw [Bool.and_eq_true, decide_eq_true_eq] at hescape
      exact hescape.1
    · exact ⟨_, _, if_neg hescape, .inl rfl⟩

/-- The lexemes of a text that does not end with a backslash do not depend on what follows. -/
theorem ofText_append (h : cs.getLast? ≠ some '\\') (ds : List Char) :
    ofText (cs ++ ds) = ofText cs ++ ofText ds := by
  fun_induction ofText cs with
  | case1 => rfl
  | case2 c =>
    have hc : c ≠ '\\' := by simpa using h
    exact ofText_cons hc ds
  | case3 c d cs hescape ih =>
    have hreserved : c = '\\' ∧ CharKind.isReserved d = true := by simpa using hescape
    rw [hreserved.1]
    have hrest : cs.getLast? ≠ some '\\' := by
      intro hlast
      cases cs with
      | nil => contradiction
      | cons e cs => exact h (by simpa [List.getLast?_cons_cons] using hlast)
    rw [List.cons_append, List.cons_append, ofText_backslash hreserved.2, ih hrest,
      List.cons_append]
  | case4 c d cs hescape ih =>
    have hrest : (d :: cs).getLast? ≠ some '\\' := by
      rwa [List.getLast?_cons_cons] at h
    have hstep : ofText (c :: (d :: cs ++ ds)) =
        ⟨CharKind.ofChar c, c⟩ :: ofText (d :: cs ++ ds) := by
      rw [List.cons_append, ofText, if_neg hescape]
    rw [List.cons_append, hstep, ih hrest, List.cons_append]

/-- A character with a meaning of its own stands in the text between two texts that have the lexemes
around it. -/
theorem exists_split_of_ofText {c : Char} {before after : List Lexeme}
    (h : ofText cs = before ++ ⟨.punctuation, c⟩ :: after) :
    ∃ ds es, cs = ds ++ c :: es ∧ ofText ds = before ∧ ofText es = after := by
  fun_induction ofText cs generalizing before with
  | case1 =>
    rw [eq_comm, List.append_eq_nil_iff] at h
    exact absurd h.2 (List.cons_ne_nil _ _)
  | case2 d =>
    cases before with
    | nil =>
      rw [List.nil_append, List.cons.injEq, mk.injEq] at h
      obtain ⟨⟨-, rfl⟩, rfl⟩ := h
      exact ⟨[], [], rfl, rfl, rfl⟩
    | cons l before => simp at h
  | case3 d e cs hescape ih =>
    cases before with
    | nil => simp at h
    | cons l before =>
      rw [List.cons_append, List.cons.injEq] at h
      obtain ⟨ds, es, rfl, rfl, hes⟩ := ih h.2
      refine ⟨d :: e :: ds, es, rfl, ?_, hes⟩
      rw [ofText, if_pos hescape, h.1]
  | case4 d e cs hescape ih =>
    cases before with
    | nil =>
      rw [List.nil_append, List.cons.injEq, mk.injEq] at h
      obtain ⟨⟨-, rfl⟩, rfl⟩ := h
      exact ⟨[], e :: cs, rfl, rfl, rfl⟩
    | cons l before =>
      rw [List.cons_append, List.cons.injEq] at h
      obtain ⟨ds, es, hsplit, rfl, hes⟩ := ih h.2
      refine ⟨d :: ds, es, by rw [hsplit, List.cons_append], ?_, hes⟩
      cases ds with
      | nil =>
        rw [← h.1]
        rfl
      | cons f ds =>
        obtain ⟨rfl, -⟩ := List.cons.inj hsplit
        rw [ofText, if_neg hescape, h.1]

/-- Each character of a text without backslashes is a lexeme. -/
theorem ofText_plain (h : ∀ c ∈ cs, c ≠ '\\') (ds : List Char) :
    ofText (cs ++ ds) = (cs.map fun c ↦ ⟨CharKind.ofChar c, c⟩) ++ ofText ds := by
  induction cs with
  | nil => rfl
  | cons c cs ih =>
    rw [List.forall_mem_cons] at h
    rw [List.cons_append, ofText_cons h.1, ih h.2, List.map_cons, List.cons_append]

/-- Blanks are lexemes of their kind. -/
theorem ofText_blanks (h : ∀ c ∈ cs, Text.isBlank c = true) (ds : List Char) :
    ofText (cs ++ ds) = (cs.map fun c ↦ ⟨.space, c⟩) ++ ofText ds := by
  rw [ofText_plain fun c hc ↦ CharKind.ne_backslash_of_isBlank (h c hc),
    List.map_congr_left fun c hc ↦ by rw [CharKind.ofChar_of_isBlank (h c hc)]]

/-- The lexeme of a character in an escaped text: it is literal if it is special. -/
def ofEscaped (special : Char → Bool) (c : Char) : Lexeme :=
  ⟨if special c then .literal else CharKind.ofChar c, c⟩

/-- An escaped text has a lexeme for each of its characters, if all backslashes are escaped and
nothing but what is kept as punctuation. -/
theorem ofText_escape {special : Char → Bool} (hback : special '\\' = true)
    (hspecial : ∀ c, special c = true → CharKind.isReserved c = true) (cs ds : List Char) :
    ofText (Text.escape special cs ++ ds) = cs.map (ofEscaped special) ++ ofText ds := by
  induction cs with
  | nil => rfl
  | cons c cs ih =>
    rw [Text.escape_cons, List.map_cons, List.cons_append, ofEscaped]
    by_cases hc : special c = true
    · rw [if_pos hc, if_pos hc, List.append_assoc, List.cons_append, List.singleton_append,
        ofText_backslash (hspecial c hc), ih]
    · have hne : c ≠ '\\' := by
        rintro rfl
        exact hc hback
      rw [if_neg hc, if_neg hc, List.append_assoc, List.singleton_append, ofText_cons hne, ih]

end Lexeme

end MarkupSelect
