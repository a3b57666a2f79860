import Mathlib.Algebra.BigOperators.Group.Multiset.Basic
import Mathlib.Tactic.Abel
import MarkupSelect.Proofs.Extract.Merged

/-!
# The texts in a form

However fields of one name are merged, each text that a control has is in the form as often as
controls have it: merging counts no text twice and leaves none out.
-/

namespace MarkupSelect

namespace FormValue

mutual

/-- The texts of a value, at any depth, each as often as it is there. -/
def texts : FormValue → Multiset Bytes
  | .value text => text.toList
  | .map entries => textsOfEntries entries

/-- The texts of some entries. -/
def textsOfEntries : Entries → Multiset Bytes
  | [] => 0
  | (_, v) :: entries => texts v + textsOfEntries entries

end

variable {target others result entries : Entries} {key : Bytes} {v w : FormValue}

/-! ### Entries -/

@[simp] theorem textsOfEntries_append (entries entries' : Entries) :
    textsOfEntries (entries ++ entries') = textsOfEntries entries + textsOfEntries entries' := by
  induction entries with
  | nil => rw [List.nil_append, textsOfEntries, zero_add]
  | cons e entries ih => rw [List.cons_append, textsOfEntries, textsOfEntries, ih, add_assoc]

@[simp] theorem textsOfEntries_singleton (key : Bytes) (v : FormValue) :
    textsOfEntries [(key, v)] = texts v := by
  rw [textsOfEntries, textsOfEntries, add_zero]

/-- The entries that a value stands for hold its texts. -/
@[simp] theorem textsOfEntries_toEntries (v : FormValue) :
    textsOfEntries v.toEntries = texts v := by
  cases v with
  | map entries => rw [toEntries, texts]
  | value text =>
    cases text with
    | none => rfl
    | some text => rw [toEntries, textsOfEntries_singleton]

/-- An entry behind all others adds its texts. -/
@[simp] theorem textsOfEntries_appended (entries : Entries) (v : FormValue) :
    textsOfEntries (append entries v) = textsOfEntries entries + texts v := by
  rw [append, textsOfEntries_append, textsOfEntries_singleton]

/-- Values numbered in a row hold their texts. -/
theorem textsOfEntries_mapIdx (keyOf : Nat → Bytes) (values : List Bytes) :
    textsOfEntries (values.mapIdx fun i value ↦ (keyOf i, .value (some value))) = values := by
  induction values generalizing keyOf with
  | nil => rfl
  | cons value values ih =>
    rw [List.mapIdx_cons, textsOfEntries, ih fun i ↦ keyOf (i + 1), texts]
    rfl

/-! ### Merging -/

/-- In the place of a value another one takes its texts out and puts its own in. -/
theorem textsOfEntries_replace (h : get? (.map entries) key = some w) (v : FormValue) :
    textsOfEntries (replace key v entries) + texts w = textsOfEntries entries + texts v := by
  obtain ⟨before, after, rfl, hreplace⟩ := exists_split_of_get? h
  rw [hreplace, textsOfEntries_append, textsOfEntries_append, textsOfEntries, textsOfEntries]
  abel

/-- Merging keeps all texts. -/
theorem Merges.texts_eq (h : Merges target others result) :
    textsOfEntries result = textsOfEntries target + textsOfEntries others := by
  induction h with
  | nil target => rw [textsOfEntries, add_zero]
  | index _ _ ih => rw [ih, textsOfEntries_appended, textsOfEntries, add_assoc]
  | @present target others result both key v w _ hget _ _ hboth ih =>
    rw [textsOfEntries_toEntries, textsOfEntries_toEntries] at hboth
    have hreplace := textsOfEntries_replace hget (.map both)
    rw [texts, hboth] at hreplace
    -- What was there under the name is in both values, so it may be taken away.
    have hsum : textsOfEntries (replace key (.map both) target) = textsOfEntries target + texts v :=
      add_right_cancel (hreplace.trans (by abel))
    rw [ih, hsum, textsOfEntries, add_assoc]
  | fresh _ _ _ ih =>
    rw [ih, textsOfEntries_append, textsOfEntries_singleton, textsOfEntries, add_assoc]

/-- A path of keys adds no text and takes none away. -/
theorem texts_nested (v : FormValue) (keys : List Bytes) : texts (nested v keys) = texts v := by
  induction keys with
  | nil => rfl
  | cons key keys ih => rw [nested, texts, textsOfEntries_singleton, ih]

end FormValue

namespace Form

open FormValue

/-! ### Controls -/

/-- The texts that a control has of itself: the values of the options of a `select`, the content of
a `textarea`, and the attribute `value` of any other. -/
def ownTexts (control : Bytes) : List Bytes :=
  let name := StartTag.nameOf? control
  if name = some (Bytes.ofString "select") then
    ((Selection.ofDocument control).find "option").elements.entries.filterMap
      fun e ↦ optionValue? e.2
  else if name = some (Bytes.ofString "textarea") then
    ((Parts.ofMarkup? control).map (·.content)).toList
  else ((AttributeMap.ofMarkup control).value? (Bytes.ofString "value")).toList

/-- Whether a control has a name that is written with a value. -/
def isNamed (control : Bytes) : Bool :=
  ((AttributeMap.ofMarkup control).value? (Bytes.ofString "name")).isSome

/-- The controls in a selection; a selector given takes the place of the usual controls. -/
def matched (s : Selection) (selector : Option String) : List Bytes :=
  (s.find (selector.getD controls)).elements.entries.map (·.2)

private theorem texts_selectValue (select : Bytes) :
    texts (selectValue select) =
      ((Selection.ofDocument select).find "option").elements.entries.filterMap
        fun e ↦ optionValue? e.2 := by
  unfold selectValue
  dsimp only
  split
  · next h =>
    rw [h]
    rfl
  · rw [texts, textsOfEntries_mapIdx]

/-- The value of a control holds the texts that the control has of itself. -/
theorem texts_controlValue (control : Bytes) : texts (controlValue control) = ownTexts control := by
  unfold controlValue ownTexts
  dsimp only
  split
  · exact texts_selectValue control
  · split <;> rw [texts]

/-- A control with a name adds the texts that it has of itself. -/
theorem textsOfEntries_addControl (fields : Entries) (control : Bytes) :
    textsOfEntries (addControl fields control) =
      textsOfEntries fields + if isNamed control then ownTexts control else [] := by
  unfold addControl isNamed
  split
  · next hname =>
    rw [hname]
    exact (add_zero _).symm
  · next name hname =>
    rw [hname, (merges_mergeEntries _ _).texts_eq, field, textsOfEntries_toEntries, texts_nested,
      texts_controlValue]
    rfl

/-- Controls add the texts that those of them with a name have of themselves. -/
theorem textsOfEntries_foldl_addControl (controls : List Bytes) (fields : Entries) :
    textsOfEntries (controls.foldl addControl fields) = textsOfEntries fields +
      ((controls.filter isNamed).map fun control ↦ (ownTexts control : Multiset Bytes)).sum := by
  induction controls generalizing fields with
  | nil => exact (add_zero _).symm
  | cons control controls ih =>
    rw [List.foldl_cons, ih, textsOfEntries_addControl, add_assoc]
    by_cases hname : isNamed control = true
    · rw [if_pos hname, List.filter_cons_of_pos hname, List.map_cons, List.sum_cons]
    · rw [if_neg hname, List.filter_cons_of_neg hname, Multiset.coe_nil, zero_add]

end Form

end MarkupSelect
