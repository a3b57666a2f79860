import MarkupSelect.Proofs.Matches
import MarkupSelect.Query.Basic

/-!
# The stages of a query

What an alternative selects is what its last stage finds. A stage without hits leaves nothing to the
steps behind it, so the early end of a query does not show: the steps of two alternatives in a row
find what the second finds in the contents of what the first has found.
-/

namespace MarkupSelect

/-- Without regions a step selects nothing. -/
@[simp] theorem Step.select_nil (s : Step) : s.select [] = .empty := by
  unfold select
  split <;> rfl

namespace Alternative

/-- What the last stage of an alternative finds. -/
def found (regions : List Region) (a : Alternative) : Matches :=
  ((stages regions a).getLast?.map Stage.hits).getD .empty

variable {a b : Alternative}

/-- A single step finds what it selects. -/
theorem found_singleton (regions : List Region) (s : Step) :
    found regions [s] = s.select regions := by
  simp [found, stages]

private theorem found_cons_cons (regions : List Region) (s t : Step) (a : Alternative) :
    found regions (s :: t :: a) =
      if (s.select regions).isEmpty then s.select regions
      else found (s.select regions).contents (t :: a) := by
  rw [found, stages]
  split
  · rfl
  · rw [found, stages, List.getLast?_cons_cons]

/-- Without regions nothing is found. -/
theorem found_nil (a : Alternative) : found [] a = .empty := by
  cases a with
  | nil => rfl
  | cons s a =>
    cases a with
    | nil => rw [found_singleton, Step.select_nil]
    | cons t a =>
      rw [found_cons_cons, Step.select_nil]
      rfl

/-- The steps behind the first search the contents of what the first selects. -/
theorem found_cons (regions : List Region) (s : Step) (ha : a ≠ []) :
    found regions (s :: a) = found (s.select regions).contents a := by
  obtain ⟨t, a, rfl⟩ := List.exists_cons_of_ne_nil ha
  rw [found_cons_cons]
  split
  · next hempty =>
    have hselect : s.select regions = .empty :=
      Matches.ext_entries (List.isEmpty_iff.mp hempty)
    rw [hselect]
    exact (found_nil _).symm
  · rfl

/-- The steps behind others search the contents of what those find. -/
theorem found_append (regions : List Region) (ha : a ≠ []) (hb : b ≠ []) :
    found regions (a ++ b) = found (found regions a).contents b := by
  induction a generalizing regions with
  | nil => contradiction
  | cons s a ih =>
    cases a with
    | nil => rw [List.singleton_append, found_cons _ _ hb, found_singleton]
    | cons t a =>
      have hrest : t :: a ≠ [] := List.cons_ne_nil t a
      have hall : t :: a ++ b ≠ [] := List.append_ne_nil_of_left_ne_nil hrest b
      rw [List.cons_append, found_cons _ _ hall, ih _ hrest, found_cons _ _ hrest]

/-- An alternative with steps selects what it finds in the regions of the context. -/
theorem select_eq_found (ha : a ≠ []) (document : Bytes) (context : Context) :
    a.select document context = found (context.regions document) a := by
  obtain ⟨s, a, rfl⟩ := List.exists_cons_of_ne_nil ha
  have hlast : ∃ stage, (stages (context.regions document) (s :: a)).getLast? = some stage := by
    rw [stages, List.getLast?_cons]
    exact ⟨_, rfl⟩
  obtain ⟨stage, hstage⟩ := hlast
  unfold select found
  rw [hstage]
  rfl

/-- The steps behind others select in the context of what those select. -/
theorem select_append (ha : a ≠ []) (hb : b ≠ []) (document : Bytes) (context : Context) :
    (a ++ b).select document context =
      b.select document (.selected (a.select document context)) := by
  rw [select_eq_found (by simp [ha]), found_append _ ha hb, select_eq_found ha, select_eq_found hb]
  rfl

end Alternative

namespace Selector

variable {s : Selector}

/-- A selector of one alternative finds what that selects. -/
theorem query_of_singleton {a : Alternative} (h : s.alternatives = [a]) (document : Bytes)
    (context : Context) : s.query document context = a.select document context := by
  rw [query, h]
  exact Matches.empty_union _

/-- What a query finds at an offset is what the first alternative selects there that selects
anything there. -/
theorem get?_query (s : Selector) (document : Bytes) (context : Context) (offset : Nat) :
    (s.query document context).get? offset =
      s.alternatives.findSome? fun a ↦ (a.select document context).get? offset := by
  rw [query, Matches.get?_foldl_union, Matches.get?_empty, Option.none_or]

end Selector

end MarkupSelect
