import MarkupSelect.Proofs.Locate.Anchored
import MarkupSelect.Proofs.Query.Stages

/-!
# The order of predicates

A search for a condition looks for the first field of each group, and a step without a tag name is
searched for its first predicate. So the order matters if a tag carries the one attribute and not
the other: the search wants white space in front of a name, and looks for the brackets of the tag
around it. Where all attributes asked for are set apart, and no name begins with a `<`, it does not.
-/

namespace MarkupSelect

/-- A step with several predicates and without a tag name is searched as its condition. -/
theorem Plan.ofStep?_of_two_le {s : Step} (htag : s.tag = none) (h : 2 ≤ s.predicates.length) :
    ofStep? s = some (.condition s.condition) := by
  unfold ofStep?
  split
  · next htag' _ => rw [htag] at htag'; contradiction
  · next htag' _ => rw [htag] at htag'; contradiction
  · next _ hp => rw [hp] at h; contradiction
  · next _ hp => rw [hp] at h; contradiction
  · rfl

/-- A selector of one step with several predicates and without a tag name finds what a query for the
condition of the step finds. -/
theorem Selector.query_of_two_le {s : Selector} {predicates : List Predicate}
    (hs : s.alternatives = [[⟨none, .descendant, predicates⟩]]) (h : 2 ≤ predicates.length)
    (document : Bytes) (context : Context) :
    s.query document context =
      (Condition.all (predicates.map Predicate.atom)).query document context := by
  rw [query_of_singleton hs, Alternative.select_eq_found (List.cons_ne_nil _ _),
    Alternative.found_singleton, Step.select, Plan.ofStep?_of_two_le rfl h]
  rfl

namespace Condition

variable {c d : Condition}

/-- Conditions that find the same in every region of a context are met by the same elements. -/
theorem query_congr {document : Bytes} {context : Context}
    (h : ∀ r ∈ context.regions document, r.findCondition d = r.findCondition c) :
    d.query document context = c.query document context := by
  apply congrArg Matches.ofList
  apply List.flatMap_congr
  intro r hr
  rw [Plan.descendants, Plan.descendants, Plan.search, Plan.search, h r hr]

/-- A list of atoms is reordered in its condition. -/
theorem reordered_all {atoms others : List Atom} (h : atoms.Perm others) :
    (all atoms).Reordered (all others) := by
  unfold Condition.all
  rw [h.isEmpty_eq]
  split
  · exact .nil
  · exact .cons h .nil

/-- Where the attributes asked for are set apart, the order of atoms in the groups of a condition,
and of several predicates in a step without a tag name, does not matter to what is found. A
condition is read from a text, or asks for atoms none of whose fields begins with a `<`. -/
theorem finds_same_of_reordered :
    (∀ (r : Region) (c d : Condition), c.IsFormed →
      ((∃ text, read text = .ok c) ∨ c.OpensPlain) → c.Reordered d → r.SetsApart c →
        r.findCondition d = r.findCondition c) ∧
    ∀ (document : Bytes) (context : Context) (s t : Selector) (ps qs : List Predicate),
      s.alternatives = [[⟨none, .descendant, ps⟩]] → t.alternatives = [[⟨none, .descendant, qs⟩]] →
        2 ≤ ps.length → ps.Perm qs → (all (ps.map Predicate.atom)).OpensPlain →
          (∀ r ∈ context.regions document, r.SetsApart (all (ps.map Predicate.atom))) →
            t.query document context = s.query document context := by
  constructor
  · intro r c d hc hfields h hapart
    apply Region.findCondition_of_reordered hc _ hapart h
    rcases hfields with ⟨text, hread⟩ | hplain
    · exact opensPlain_of_read hread
    · exact hplain
  · intro document context s t ps qs hs ht hlength hperm hplain hapart
    have hlength' : 2 ≤ qs.length := hperm.length_eq ▸ hlength
    rw [Selector.query_of_two_le hs hlength, Selector.query_of_two_le ht hlength']
    apply query_congr
    intro r hr
    exact Region.findCondition_of_reordered (.all _) hplain (hapart r hr)
      (reordered_all (hperm.map _))

/-- Two attributes with a blank in front of each. -/
theorem finds_same_of_reordered_blank :
    let document := Bytes.ofString "<p a b>"
    let c : Condition := .all [⟨"a", .present, ""⟩, ⟨"b", .present, ""⟩]
    let d : Condition := .all [⟨"b", .present, ""⟩, ⟨"a", .present, ""⟩]
    let ps : List Predicate := [⟨"a", .present, ""⟩, ⟨"b", .present, ""⟩]
    let qs : List Predicate := [⟨"b", .present, ""⟩, ⟨"a", .present, ""⟩]
    let s : Selector := ⟨"[a][b]", [[⟨none, .descendant, ps⟩]]⟩
    let t : Selector := ⟨"[b][a]", [[⟨none, .descendant, qs⟩]]⟩
    (c.IsFormed ∧ c.OpensPlain ∧ c.Reordered d ∧ (Region.whole document).SetsApart c ∧
      Selector.compile "[a][b]" = .ok s ∧ Selector.compile "[b][a]" = .ok t ∧ 2 ≤ ps.length ∧
        ps.Perm qs) ∧
      (Region.whole document).findCondition d = (Region.whole document).findCondition c ∧
        t.query document .document = s.query document .document := by
  intro document c d ps qs s t
  have hperm : ps.Perm qs := .swap _ _ _
  have hc : c.IsFormed := .all _
  have hplain : c.OpensPlain := by decide
  have hreordered : c.Reordered d := reordered_all (hperm.map Predicate.atom)
  have hapart : (Region.whole document).SetsApart c := by
    intro i tag htag hknown group hgroup hall a ha
    obtain rfl := List.mem_singleton.mp hgroup
    cases i with
    | zero =>
      obtain rfl : ⟨Bytes.ofString "p", Bytes.ofString " a b"⟩ = tag := Option.some.inj htag
      have hcases : a = ⟨"a", .present, ""⟩ ∨ a = ⟨"b", .present, ""⟩ := by simpa using ha
      rcases hcases with rfl | rfl
      · exact ⟨[], Ascii.space, Bytes.ofString "a b", by decide, by decide, by decide⟩
      · exact ⟨Bytes.ofString " a", Ascii.space, Bytes.ofString "b", by decide, by decide,
          by decide⟩
    | succ i =>
      -- There is no other `<`.
      have hless : Ascii.less ∈ (Bytes.ofString "p a b>").drop i :=
        (StartTag.text_prefix_of_ofMarkup? htag).subset List.mem_cons_self
      have hnot : Ascii.less ∉ Bytes.ofString "p a b>" := by decide
      exact absurd (List.mem_of_mem_drop hless) hnot
  refine ⟨⟨hc, hplain, hreordered, hapart, by decide +kernel, by decide +kernel, by decide, hperm⟩,
    ?_, ?_⟩
  · exact finds_same_of_reordered.1 _ c d hc (.inr hplain) hreordered hapart
  · apply finds_same_of_reordered.2 document .document s t ps qs rfl rfl (by decide) hperm hplain
    intro r hr
    rw [List.mem_singleton.mp hr]
    exact hapart

/-- The order of atoms and of predicates matters where a name follows a quote at once, and where a
name begins with a `<`. -/
theorem finds_other_of_reordered :
    let a : Atom := ⟨"a", .present, ""⟩
    let b : Atom := ⟨"b", .present, ""⟩
    let less : Atom := ⟨"<b", .present, ""⟩
    let quoted := Bytes.ofString "<p a=\"1\"b=\"2\"></p>"
    let opened := Bytes.ofString "<p a <b></p>"
    ((Condition.all [a, b]).Reordered (.all [b, a]) ∧
      ((Region.whole quoted).findCondition (.all [a, b])).offsets = [0] ∧
      ((Region.whole quoted).findCondition (.all [b, a])).offsets = [] ∧
      (queryText quoted .document "[a][b]").offsets = [0] ∧
      (queryText quoted .document "[b][a]").offsets = []) ∧
    (Condition.all [less, a]).Reordered (.all [a, less]) ∧
      ((Region.whole opened).findCondition (.all [less, a])).offsets = [0] ∧
      ((Region.whole opened).findCondition (.all [a, less])).offsets = [] ∧
      (queryText opened .document "[\\<b][a]").offsets = [0] ∧
      (queryText opened .document "[a][\\<b]").offsets = [] := by
  intro a b less quoted opened
  exact ⟨⟨reordered_all (.swap _ _ _), by decide +kernel⟩, reordered_all (.swap _ _ _),
    by decide +kernel⟩

end Condition

end MarkupSelect
