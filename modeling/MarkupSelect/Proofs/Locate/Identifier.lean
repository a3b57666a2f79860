import Mathlib.Data.List.Find
import MarkupSelect.Proofs.Locate.Exact
import MarkupSelect.Proofs.Locate.Found

/-!
# The first start tag with an identifier

A search for an identifier stops at the first start tag that has it, where a search for the
condition goes on to the end. The occurrences of a name ascend, and so do the tags around them; so
the one finds the first of what the other finds, provided that the attribute is written with a
value. An `id` without a value is an empty value to the condition and no value to the identifier.
-/

namespace MarkupSelect

/-! ### Ascending lists -/

private theorem le_of_find?_eq_some {entries : List (Nat × Bytes)} {p : Nat × Bytes → Bool}
    {e d : Nat × Bytes} (h : entries.Pairwise fun a b ↦ a.1 ≤ b.1) (he : entries.find? p = some e)
    (hd : d ∈ entries) (hp : p d = true) : e.1 ≤ d.1 := by
  obtain ⟨-, before, after, rfl, hbefore⟩ := List.find?_eq_some_iff_append.mp he
  rcases List.mem_append.mp hd with hd | hd
  · have := hbefore d hd
    rw [hp] at this
    contradiction
  · rcases List.mem_cons.mp hd with rfl | hd
    · exact Nat.le_refl _
    · exact (List.pairwise_cons.mp (List.pairwise_append.mp h).2.1).1 d hd

private theorem find?_eq_of_ascending {entries others : List (Nat × Bytes)}
    {p : Nat × Bytes → Bool} (h : entries.Pairwise fun a b ↦ a.1 ≤ b.1)
    (hother : others.Pairwise fun a b ↦ a.1 ≤ b.1) (hc : Matches.Consistent entries)
    (hmem : ∀ e, p e = true → (e ∈ entries ↔ e ∈ others)) : entries.find? p = others.find? p := by
  cases hfirst : entries.find? p with
  | none =>
    rw [eq_comm, List.find?_eq_none]
    intro e he hp
    exact List.find?_eq_none.mp hfirst e ((hmem e hp).mpr he) hp
  | some e =>
    have hp := List.find?_some hfirst
    have he := List.mem_of_find?_eq_some hfirst
    cases hsecond : others.find? p with
    | none => exact absurd hp (List.find?_eq_none.mp hsecond e ((hmem e hp).mp he))
    | some d =>
      have hpd := List.find?_some hsecond
      have hd := (hmem d hpd).mpr (List.mem_of_find?_eq_some hsecond)
      have hoffset : e.1 = d.1 := Nat.le_antisymm (le_of_find?_eq_some h hfirst hd hpd)
        (le_of_find?_eq_some hother hsecond ((hmem e hp).mp he) hp)
      rw [hc e he d hd hoffset]

namespace Region

/-! ### The tags around a name -/

variable {text name tag tag' : Bytes} {position position' start start' : Nat}

/-- The tag around a later position begins where the tag around an earlier one does, or behind
it. -/
theorem StandsInTag.start_le (h : StandsInTag text name position start tag)
    (h' : StandsInTag text name position' start' tag') (hlt : position < position') :
    start ≤ start' := by
  obtain ⟨before, lead, rest, after, htext, rfl, hposition, -⟩ := h.around
  obtain ⟨before', lead', rest', after', htext', rfl, hposition', hless, -⟩ := h'.around
  apply Nat.le_of_not_lt
  intro hbehind
  apply hless
  -- The `<` of the earlier tag would stand between the `<` of the later one and its position.
  have hat : text[before.length]? = some Ascii.less := by
    rw [htext, List.getElem?_append_right (Nat.le_refl _), Nat.sub_self, List.getElem?_cons_zero]
  have hin : before.length - before'.length - 1 < lead'.length := by omega
  have hsucc : before.length - before'.length = before.length - before'.length - 1 + 1 := by omega
  rw [htext', List.getElem?_append_right (Nat.le_of_lt hbehind), hsucc, List.getElem?_cons_succ,
    List.getElem?_append_left hin] at hat
  exact List.mem_of_getElem? hat

/-- The start tags with an attribute name are listed in ascending order. -/
theorem ascending_tagsWith (r : Region) (name : Bytes) :
    (r.tagsWith name).Pairwise fun a b ↦ a.1 ≤ b.1 := by
  rw [tagsWith_eq, List.pairwise_map]
  apply (r.ascending_occurrences name).imp_of_mem
  rintro ⟨position, start, tag⟩ ⟨position', start', tag'⟩ ho ho' hlt
  exact Nat.add_le_add_left ((mem_occurrences_iff.mp ho).2.start_le (mem_occurrences_iff.mp ho').2
    hlt) _

/-! ### The identifier -/

variable {r : Region} {v : String}

/-- A search for an identifier finds the first start tag that has it. -/
theorem entries_findId (r : Region) (id : Bytes) :
    (r.findId id).entries = ((r.tagsWith (Bytes.ofString "id")).find? fun e ↦
      (AttributeMap.ofMarkupValid e.2).value? (Bytes.ofString "id") = some id).toList := by
  have hkeep : ∀ tag, (if (AttributeMap.ofMarkupValid tag).value? (Bytes.ofString "id") = some id
      then Verdict.keepAndStop else .skip) ≠ .keep := by
    intro tag
    split <;> simp
  unfold findId findAttributes filterAttributes
  rw [Filter.entries_run_of_stops hkeep]
  congr 2
  funext e
  by_cases hid : (AttributeMap.ofMarkupValid e.2).value? (Bytes.ofString "id") = some id
  · simp [hid]
  · simp [hid]

/-- A search for the condition finds the start tags whose `id` has the value, or has none if the
value is empty. -/
theorem mem_findCondition_id_iff {e : Nat × Bytes} :
    e ∈ (r.findCondition (.all [⟨"id", .equals, v⟩])).entries ↔
      e ∈ r.tagsWith (Bytes.ofString "id") ∧
        ∃ value, (AttributeMap.ofMarkupValid e.2).get? (Bytes.ofString "id") = some value ∧
          value.getD [] = Bytes.ofString v := by
  have hanchors : (Condition.all [⟨"id", .equals, v⟩]).anchors = ["id"] := rfl
  rw [mem_findCondition_iff, hanchors, Condition.evaluate_all, List.all_cons, List.all_nil,
    Bool.and_true, Atom.evaluate]
  apply and_congr
  · simp
  · cases (AttributeMap.ofMarkupValid e.2).get? (Bytes.ofString "id") with
    | none => simp
    | some value => simp [Operator.apply]

private theorem ofString_ne_nil (h : v ≠ "") : Bytes.ofString v ≠ [] := by
  intro hnil
  apply h
  rw [← String.toList_eq_nil_iff]
  cases hchars : v.toList with
  | nil => rfl
  | cons c cs =>
    rw [Bytes.ofString, hchars, Bytes.ofChars_cons, List.append_eq_nil_iff] at hnil
    exact absurd hnil.1 String.utf8EncodeChar_ne_nil

/-- A search for an identifier finds the first start tag of those that a search for the condition
finds and whose `id` is written with a value. Only for the empty identifier this is not the first of
all. -/
theorem findId_exact (r : Region) (v : String) :
    (r.findId (Bytes.ofString v)).entries =
        ((r.findCondition (.all [⟨"id", .equals, v⟩])).entries.find? fun e ↦
          ((AttributeMap.ofMarkupValid e.2).value? (Bytes.ofString "id")).isSome).toList ∧
      (v ≠ "" →
        (r.findId (Bytes.ofString v)).entries =
            (r.findCondition (.all [⟨"id", .equals, v⟩])).first?.toList ∧
          (r.findId (Bytes.ofString v)).isEmpty =
            (r.findCondition (.all [⟨"id", .equals, v⟩])).isEmpty) := by
  have hfirst : (r.findId (Bytes.ofString v)).entries =
      ((r.findCondition (.all [⟨"id", .equals, v⟩])).entries.find? fun e ↦
        ((AttributeMap.ofMarkupValid e.2).value? (Bytes.ofString "id")).isSome).toList := by
    rw [entries_findId]
    apply congrArg Option.toList
    have hsame : ∀ e ∈ (r.findCondition (.all [⟨"id", .equals, v⟩])).entries,
        ((AttributeMap.ofMarkupValid e.2).value? (Bytes.ofString "id")).isSome =
          decide ((AttributeMap.ofMarkupValid e.2).value? (Bytes.ofString "id") =
            some (Bytes.ofString v)) := by
      intro e he
      obtain ⟨-, value, hget, hvalue⟩ := mem_findCondition_id_iff.mp he
      rw [AttributeMap.value?, hget, Option.join_some, ← hvalue]
      cases value <;> simp
    rw [List.find?_congr hsame]
    apply find?_eq_of_ascending (r.ascending_tagsWith _)
      ((r.findCondition _).ascending.imp Nat.le_of_lt)
      (consistent_of_starts fun _ h ↦ mem_tagsWith h)
    intro e hp
    rw [decide_eq_true_eq, AttributeMap.value?, Option.join_eq_some_iff] at hp
    rw [mem_findCondition_id_iff]
    exact ⟨fun he ↦ ⟨he, _, hp, rfl⟩, fun he ↦ he.1⟩
  refine ⟨hfirst, fun hv ↦ ?_⟩
  have hall : ∀ e ∈ (r.findCondition (.all [⟨"id", .equals, v⟩])).entries,
      ((AttributeMap.ofMarkupValid e.2).value? (Bytes.ofString "id")).isSome = true := by
    intro e he
    obtain ⟨-, value, hget, hvalue⟩ := mem_findCondition_id_iff.mp he
    rw [AttributeMap.value?, hget, Option.join_some]
    cases value with
    | none => exact absurd hvalue.symm (ofString_ne_nil hv)
    | some value => rfl
  have hleast : (r.findId (Bytes.ofString v)).entries =
      (r.findCondition (.all [⟨"id", .equals, v⟩])).first?.toList := by
    rw [hfirst, ← List.head?_filter, List.filter_eq_self.mpr hall, Matches.first?]
  refine ⟨hleast, ?_⟩
  rw [Matches.isEmpty, Matches.isEmpty, hleast, Matches.first?]
  cases (r.findCondition (.all [⟨"id", .equals, v⟩])).entries <;> rfl

/-- The first of two start tags with an identifier, the name of which stands in a value before. -/
theorem findId_exact_two :
    let r : Region := ⟨5, Bytes.ofString "<b class=' id'><p ID='x'><i id=x>"⟩
    "x" ≠ "" ∧
      (r.findId (Bytes.ofString "x")).entries =
        (r.findCondition (.all [⟨"id", .equals, "x"⟩])).first?.toList ∧
      (r.findId (Bytes.ofString "x")).offsets = [20] ∧
      (r.findCondition (.all [⟨"id", .equals, "x"⟩])).offsets = [20, 30] := by
  intro r
  have hne : "x" ≠ "" := by decide
  exact ⟨hne, ((findId_exact r "x").2 hne).1, by decide +kernel⟩

/-- The empty identifier is not found where `id` is written without a value, although the condition
holds there. -/
theorem findId_empty_ne :
    let r : Region := ⟨0, Bytes.ofString "<p id>"⟩
    (r.findId (Bytes.ofString "")).entries = [] ∧
      (r.findCondition (.all [⟨"id", .equals, ""⟩])).first? =
        some (0, Bytes.ofString "<p id>") := by
  decide +kernel

end Region

end MarkupSelect
