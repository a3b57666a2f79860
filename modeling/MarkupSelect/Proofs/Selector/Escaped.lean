import MarkupSelect.Proofs.Selector.Written

/-!
# Escaped short forms

Behind a `#` or a `.` any name can be written, with a backslash in front of all that is reserved in
it. Only at its end the backslash is of no use: there a text is looked at as it stands, and what is
reserved ends no selector, unless it is a `]`.
-/

namespace MarkupSelect

/-- The predicate that a short form of a value amounts to by itself. -/
def Shorthand.predicate : Shorthand → String → Predicate
  | identifier, value => ⟨"id", .equals, value⟩
  | className, value => ⟨"class", .anyWord, value⟩

namespace Builder

/-- At the end of the text a short form is a step by itself. -/
theorem finish_shorthand (kind : Shorthand) {name : List Char} (h : name ≠ []) :
    finish { empty with reading := .shorthand kind name } =
      .ok [[⟨none, .descendant, [kind.predicate (String.ofList name)]⟩]] := by
  have hname : name.isEmpty = false := List.isEmpty_eq_false_iff.mpr h
  rw [finish]
  simp only [withShorthand, hname]
  cases kind <;> rfl

end Builder

namespace Grammar

open Selector

/-- A name is written with its last character at the end. -/
theorem Name.getLast?_written (name : Name) :
    name.written.getLast? = some (name.chars.getLast name.ne_nil) := by
  rw [written, Text.getLast?_escape, List.getLast?_eq_some_getLast name.ne_nil]

/-- A name behind `#` or `.` is read as the predicate of its short form. -/
theorem Name.alternativesOf_escaped (kind : Shorthand) (name : Name) :
    alternativesOf (kind.char :: name.written) =
      .ok [[⟨none, .descendant, [kind.predicate (String.ofList name.chars)]⟩]] := by
  have hread := Builder.readsText_escaped (Builder.settle_of_between rfl) kind name
    (b := Builder.empty)
  rw [alternativesOf, hread.reads 0]
  exact Builder.finish_shorthand kind name.ne_nil

/-- Escaping makes a short form of every name: it compiles to one step that asks for the name alone.
A name that ends with what is reserved has none, unless it ends with a `]`. -/
theorem Name.compile_escaped (kind : Shorthand) (name : Name) :
    let last := name.chars.getLast name.ne_nil
    let text := kind.char :: name.written
    ((CharKind.isReserved last = true → last = ']') →
      compile (String.ofList text) = .ok ⟨String.ofList text,
        [[⟨none, .descendant, [kind.predicate (String.ofList name.chars)]⟩]]⟩) ∧
      (CharKind.isReserved last = true → last ≠ ']' →
        compile (String.ofList text) = .error (.trailingPunctuation last)) := by
  intro last text
  have hblank : Text.isBlank last = false := name.notBlank last (List.getLast_mem name.ne_nil)
  have htext : (String.ofList text).toList = text := String.toList_ofList
  constructor
  · intro hcloses
    have hopens : kind.char ∈ ['#', '.', '['] := by
      cases kind <;> decide
    have hends : HasEnds text := hasEnds_cons hopens ⟨last, name.getLast?_written, hblank, hcloses⟩
    exact compile_of_hasEnds hends (List.forall_mem_nil _) (List.forall_mem_nil _)
      (name.alternativesOf_escaped kind) (by rw [htext, List.nil_append, List.append_nil])
  · intro hreserved hne
    have hlast : text.getLast? = some last := by
      rw [List.getLast?_cons, name.getLast?_written, Option.getD_some]
    have htrimmed : Text.IsTrimmed text := by
      have hfirst : Text.isBlank kind.char = false := by
        cases kind <;> decide
      exact ⟨⟨kind.char, rfl, hfirst⟩, last, hlast, hblank⟩
    rw [compile, htext, htrimmed.trim_eq, edgeError?_of_getLast? hlast hreserved hne]

/-- A name with reserved characters at its beginning, in it and at its end, and one with a reserved
character at its end that ends no selector. -/
theorem Name.compile_escaped_reserved :
    let name : Name := ⟨"\\a.b]".toList, by decide, List.all_iff_forall_prop.mp (by decide)⟩
    let other : Name := ⟨"a.".toList, by decide, List.all_iff_forall_prop.mp (by decide)⟩
    ((CharKind.isReserved ']' = true → ']' = ']') ∧ CharKind.isReserved '.' = true ∧ '.' ≠ ']') ∧
      compile (String.ofList ('.' :: name.written)) =
        .ok ⟨".\\\\a\\.b\\]", [[⟨none, .descendant, [⟨"class", .anyWord, "\\a.b]"⟩]⟩]]⟩ ∧
      compile (String.ofList ('#' :: other.written)) = .error (.trailingPunctuation '.') := by
  intro name other
  have hreserved : CharKind.isReserved '.' = true := by decide
  refine ⟨⟨fun _ ↦ rfl, hreserved, by decide⟩, ?_, ?_⟩
  · exact (Name.compile_escaped .className name).1 fun _ ↦ rfl
  · exact (Name.compile_escaped .identifier other).2 hreserved (by decide)

/-- The identifier `a.` has no short form, although what is reserved in it is escaped. -/
theorem Name.compile_escaped_trailing :
    String.ofList ('#' :: Text.escape CharKind.isReserved "a.".toList) = "#a\\." ∧
      compile "#a\\." = .error (.trailingPunctuation '.') :=
  ⟨by decide, rfl⟩

end Grammar

end MarkupSelect
