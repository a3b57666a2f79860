/-!
# Escaped texts

A text is written with a backslash in front of each character that would otherwise be taken for
something else. In a quote these are the quote itself and the backslash.
-/

namespace MarkupSelect.Text

/-- A text with a backslash in front of its special characters. -/
def escape (special : Char → Bool) (cs : List Char) : List Char :=
  cs.flatMap fun c ↦ if special c then ['\\', c] else [c]

variable {special : Char → Bool}

@[simp] theorem escape_nil : escape special [] = [] := rfl

@[simp] theorem escape_cons (c : Char) (cs : List Char) :
    escape special (c :: cs) = (if special c then ['\\', c] else [c]) ++ escape special cs := rfl

/-- The last character of a text stands last, with or without a backslash. -/
theorem getLast?_escape (special : Char → Bool) (cs : List Char) :
    (escape special cs).getLast? = cs.getLast? := by
  induction cs with
  | nil => rfl
  | cons c cs ih =>
    have hfirst : (if special c then ['\\', c] else [c]).getLast? = some c := by
      split <;> rfl
    rw [escape_cons, List.getLast?_append, ih, hfirst, List.getLast?_cons]
    cases cs.getLast? <;> rfl

/-- A text without special characters is written as it is. -/
theorem escape_eq_self {cs : List Char} (h : ∀ c ∈ cs, special c = false) :
    escape special cs = cs := by
  induction cs with
  | nil => rfl
  | cons c cs ih =>
    rw [List.forall_mem_cons] at h
    rw [escape_cons, h.1, ih h.2]
    rfl

/-- The two quotes in which a text may stand. -/
inductive Quote where
  | single
  | double
deriving DecidableEq, Repr

namespace Quote

/-- The character of a quote. -/
def char : Quote → Char
  | single => '\''
  | double => '"'

/-- The characters that are special inside a quote. -/
def isSpecial (q : Quote) (c : Char) : Bool := c == q.char || c == '\\'

/-- A text in quotes, as it is written. -/
def enclose (q : Quote) (cs : List Char) : List Char := q.char :: escape q.isSpecial cs ++ [q.char]

/-- A quote is no backslash. -/
theorem char_ne_backslash (q : Quote) : q.char ≠ '\\' := by
  cases q <;> decide

/-- Both quotes are special in conditions and in selectors. -/
theorem char_eq (q : Quote) : q.char = '"' ∨ q.char = '\'' := by
  cases q <;> decide

/-- What is not special is neither the quote nor a backslash. -/
theorem isSpecial_eq_false_iff {q : Quote} {c : Char} :
    q.isSpecial c = false ↔ c ≠ q.char ∧ c ≠ '\\' := by
  simp [isSpecial]

end Quote

end MarkupSelect.Text
