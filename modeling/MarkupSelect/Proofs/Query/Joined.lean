import MarkupSelect.Proofs.Query.Stages
import MarkupSelect.Proofs.Selector.Compiled
import MarkupSelect.Proofs.Selector.Joined
import MarkupSelect.Selection

/-!
# Queries for joined selectors

The query for two selectors with a comma between them is the union of the two queries, in which the
left one comes first. With a blank or a `>` between them the second is queried in what the first has
found.
-/

namespace MarkupSelect.Selector

variable {a b : String} {sa sb : Selector}

/-- Two selectors with a comma between them are a selector with the alternatives of both. A query
for it finds at each offset what the first finds there, and what the second finds where the first
finds nothing. -/
theorem query_comma (ha : compile a = .ok sa) (hb : compile b = .ok sb) :
    ∃ s, compile (a ++ "," ++ b) = .ok s ∧ s.alternatives = sa.alternatives ++ sb.alternatives ∧
      ∀ document context offset, (s.query document context).get? offset =
        ((sa.query document context).get? offset).or ((sb.query document context).get? offset) := by
  obtain ⟨s, hs, halternatives⟩ := compile_comma ha hb
  refine ⟨s, hs, halternatives, fun document context offset ↦ ?_⟩
  rw [get?_query, get?_query, get?_query, halternatives, List.findSome?_append]

/-- A tag name with a blank behind it, and a class that an element of that name may have. -/
theorem query_comma_shared :
    let sa : Selector := ⟨"p", [[⟨some "p", .descendant, []⟩]]⟩
    let sb : Selector := ⟨".x", [[⟨none, .descendant, [⟨"class", .anyWord, "x"⟩]⟩]]⟩
    (compile "p " = .ok sa ∧ compile ".x" = .ok sb) ∧
      ∃ s, compile ("p " ++ "," ++ ".x") = .ok s ∧
        s.alternatives = sa.alternatives ++ sb.alternatives ∧
          ∀ document context offset, (s.query document context).get? offset =
            ((sa.query document context).get? offset).or
              ((sb.query document context).get? offset) := by
  intro sa sb
  have ha : compile "p " = .ok sa := by rfl
  have hb : compile ".x" = .ok sb := by rfl
  exact ⟨⟨ha, hb⟩, query_comma ha hb⟩

/-! ### Selectors of one alternative -/

variable {stepsA stepsB : Alternative}

private theorem ne_nil_of_compile {text : String} {s : Selector} {steps : Alternative}
    (h : compile text = .ok s) (hs : s.alternatives = [steps]) : steps ≠ [] := by
  apply (isRead_of_compile h steps _).ne_nil
  rw [hs]
  exact List.mem_singleton_self steps

/-- If the steps of one selector are those of two in a row, a query for it is one for the second in
what the first finds. -/
theorem query_of_append {s : Selector} (hs : s.alternatives = [stepsA ++ stepsB])
    (hsa : sa.alternatives = [stepsA]) (hsb : sb.alternatives = [stepsB]) (ha : stepsA ≠ [])
    (hb : stepsB ≠ []) (document : Bytes) (context : Context) :
    s.query document context = sb.query document (.selected (sa.query document context)) := by
  rw [query_of_singleton hs, query_of_singleton hsa, query_of_singleton hsb,
    Alternative.select_append ha hb]

private theorem headed_ne_nil (combinator : Combinator) {steps : Alternative} (h : steps ≠ []) :
    steps.headed combinator ≠ [] := by
  obtain ⟨s, steps, rfl⟩ := List.exists_cons_of_ne_nil h
  exact List.cons_ne_nil _ _

/-- Two selectors of one alternative each make one of all their steps, with a blank between them as
with a `>`, which makes a child of the first step of the second. A query for it is one for the steps
of the second in what the first finds, so that two searches may be written as one. -/
theorem query_chained (ha : compile a = .ok sa) (hb : compile b = .ok sb)
    (hsa : sa.alternatives = [stepsA]) (hsb : sb.alternatives = [stepsB]) :
    (∃ s, compile (a ++ " " ++ b) = .ok s ∧ s.alternatives = [stepsA ++ stepsB] ∧
      ∀ document context, s.query document context =
        sb.query document (.selected (sa.query document context))) ∧
    (∃ s, compile (a ++ ">" ++ b) = .ok s ∧
      s.alternatives = [stepsA ++ stepsB.headed .child] ∧
        ∀ document context, s.query document context =
          { sb with alternatives := [stepsB.headed .child] }.query document
            (.selected (sa.query document context))) ∧
    ∀ selection : Selection,
      selection.find (a ++ " " ++ b) = (selection.find a).find b := by
  have hstepsA := ne_nil_of_compile ha hsa
  have hstepsB := ne_nil_of_compile hb hsb
  have hlast : sa.alternatives = [] ++ [stepsA] := hsa
  obtain ⟨s, hs, halternatives⟩ := compile_blank ha hb hlast hsb
  obtain ⟨t, ht, hchild⟩ := compile_child ha hb hlast hsb
  have hquery := query_of_append halternatives hsa hsb hstepsA hstepsB
  refine ⟨⟨s, hs, halternatives, hquery⟩, ⟨t, ht, hchild, ?_⟩, fun selection ↦ ?_⟩
  · exact query_of_append hchild hsa rfl hstepsA (headed_ne_nil .child hstepsB)
  · simp only [Selection.find, ha, hb, hs, Selection.findSelector, hquery]
    rfl

/-- A step with a class, and one with a comma and a blank in the value of a bracket. -/
theorem query_chained_bracket :
    let stepsA : Alternative := [⟨some "ul", .descendant, [⟨"class", .anyWord, "x"⟩]⟩]
    let stepsB : Alternative := [⟨some "li", .descendant, [⟨"title", .equals, "a, b"⟩]⟩]
    let sa : Selector := ⟨"ul.x", [stepsA]⟩
    let sb : Selector := ⟨"li[title='a, b']", [stepsB]⟩
    (compile "ul.x" = .ok sa ∧ compile "li[title='a, b']" = .ok sb ∧ sa.alternatives = [stepsA] ∧
      sb.alternatives = [stepsB]) ∧
      (∃ s, compile ("ul.x" ++ " " ++ "li[title='a, b']") = .ok s ∧
        s.alternatives = [stepsA ++ stepsB] ∧ ∀ document context, s.query document context =
          sb.query document (.selected (sa.query document context))) ∧
      (∃ s, compile ("ul.x" ++ ">" ++ "li[title='a, b']") = .ok s ∧
        s.alternatives = [stepsA ++ stepsB.headed .child] ∧
          ∀ document context, s.query document context =
            { sb with alternatives := [stepsB.headed .child] }.query document
              (.selected (sa.query document context))) ∧
      ∀ selection : Selection, selection.find ("ul.x" ++ " " ++ "li[title='a, b']") =
        (selection.find "ul.x").find "li[title='a, b']" := by
  intro stepsA stepsB sa sb
  have ha : compile "ul.x" = .ok sa := by rfl
  have hb : compile "li[title='a, b']" = .ok sb := by rfl
  exact ⟨⟨ha, hb, rfl, rfl⟩, query_chained ha hb rfl rfl⟩

end MarkupSelect.Selector
