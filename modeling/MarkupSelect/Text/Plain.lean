import MarkupSelect.Text.Bytes

/-!
# Plain text

The text of a markup without its tags, and text with white space as a browser shows it. These are
the text helpers of `SPEC_FULL.md` §13.2.
-/

namespace MarkupSelect.Bytes

/-- A text without the runs from `<` to `>`; `inside` tells whether it begins in such a run. -/
def outsideTags (inside : Bool) : Bytes → Bytes
  | [] => []
  | b :: text =>
    if inside then outsideTags (b != Ascii.greater) text
    else if b = Ascii.less then outsideTags true text
    else b :: outsideTags false text

/-- A text without its tags; a tag that is not closed takes the rest of the text with it; §13.2,
`strip_tags`. -/
def stripTags (text : Bytes) : Bytes := outsideTags false text

/-- A text in which one blank stands for a run of two or more bytes of white space; `shown` tells
whether it begins in a run for which the blank is there already. -/
def collapseRuns (shown : Bool) : Bytes → Bytes
  | [] => []
  | b :: text =>
    if Ascii.isSpace b then
      if shown then collapseRuns true text
      else if text.head?.any Ascii.isSpace then Ascii.space :: collapseRuns true text
      else b :: collapseRuns false text
    else b :: collapseRuns false text

/-- Whether two bytes of white space stand side by side. -/
def hasRun : Bytes → Bool
  | b :: c :: text => Ascii.isSpace b && Ascii.isSpace c || hasRun (c :: text)
  | _ => false

/-- A text with its runs of white space collapsed; white space alone becomes nothing, and a text
without runs stays as it is; §13.2, `trim_html`. -/
def collapse (text : Bytes) : Bytes :=
  if text.all Ascii.isSpace then []
  else if hasRun text then collapseRuns false text
  else text

@[simp] theorem stripTags_nil : stripTags [] = [] := rfl

@[simp] theorem collapse_nil : collapse [] = [] := rfl

/-- Nothing that is left opens a tag. -/
theorem less_not_mem_outsideTags (inside : Bool) (text : Bytes) :
    Ascii.less ∉ outsideTags inside text := by
  induction text generalizing inside with
  | nil => simp [outsideTags]
  | cons b text ih =>
    simp only [outsideTags]
    split
    · exact ih _
    split
    · exact ih _
    next h => simpa [Ne.symm h] using ih false

end MarkupSelect.Bytes
