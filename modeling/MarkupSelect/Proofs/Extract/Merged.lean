import MarkupSelect.Extract.Form

/-!
# Merging the fields of a form

Entries are merged into others one by one. An entry with a number goes behind all others, and so
does one with a name that is new; under a name that is there already the entries of both values are
merged in turn. The rules say this without regard to how it is computed, so that what they keep is
shown rule by rule.
-/

namespace MarkupSelect.FormValue

/-- What the entries in the middle make of the entries in front of them, one rule for each way in
which the first of them is merged: what has a number is numbered on, what has a name that is there
already is merged with what is there, and what has a new name is added. -/
inductive Merges : Entries → Entries → Entries → Prop
  | nil (target : Entries) : Merges target [] target
  | index {target others result : Entries} {key : Bytes} {v : FormValue}
      (hkey : isIndex key = true) (hrest : Merges (append target v) others result) :
      Merges target ((key, v) :: others) result
  | present {target others result both : Entries} {key : Bytes} {v w : FormValue}
      (hkey : isIndex key = false) (hget : get? (.map target) key = some w)
      (hboth : Merges w.toEntries v.toEntries both)
      (hrest : Merges (replace key (.map both) target) others result) :
      Merges target ((key, v) :: others) result
  | fresh {target others result : Entries} {key : Bytes} {v : FormValue}
      (hkey : isIndex key = false) (hget : get? (.map target) key = none)
      (hrest : Merges (target ++ [(key, v)]) others result) :
      Merges target ((key, v) :: others) result

mutual

/-- Entries are merged by the rules. -/
theorem merges_mergeEntries : ∀ target others : Entries,
    Merges target others (mergeEntries target others)
  | target, [] => by
    rw [mergeEntries]
    exact .nil target
  | target, (key, v) :: others => by
    rw [mergeEntries]
    cases hkey : isIndex key with
    | true => exact .index hkey (merges_mergeEntries _ others)
    | false =>
      cases hget : get? (.map target) key with
      | some present =>
        exact .present hkey hget (merges_mergeValue _ v) (merges_mergeEntries _ others)
      | none => exact .fresh hkey hget (merges_mergeEntries _ others)

/-- The entries of a value are merged by the rules. -/
theorem merges_mergeValue : ∀ (target : Entries) (v : FormValue),
    Merges target v.toEntries (mergeValue target v)
  | target, .map entries => by
    rw [mergeValue]
    exact merges_mergeEntries target entries
  | target, .value none => by
    rw [mergeValue]
    exact .nil target
  | target, .value (some text) => by
    rw [mergeValue]
    exact .index rfl (.nil _)

end

/-! ### One entry -/

variable {target entries : Entries} {key : Bytes} {v w : FormValue}

/-- An entry with a number is numbered on. -/
theorem mergeEntries_index (hkey : isIndex key = true) :
    mergeEntries target [(key, v)] = append target v := by
  rw [mergeEntries, if_pos hkey, mergeEntries]

/-- An entry with a name that is there already is merged with what is there. -/
theorem mergeEntries_present (hkey : isIndex key = false)
    (hget : get? (.map target) key = some w) :
    mergeEntries target [(key, v)] = replace key (.map (mergeValue w.toEntries v)) target := by
  rw [mergeEntries, if_neg (by simp [hkey]), hget]
  dsimp only
  rw [mergeEntries]

/-- An entry with a new name is added. -/
theorem mergeEntries_fresh (hkey : isIndex key = false) (hget : get? (.map target) key = none) :
    mergeEntries target [(key, v)] = target ++ [(key, v)] := by
  rw [mergeEntries, if_neg (by simp [hkey]), hget]
  dsimp only
  rw [mergeEntries]

/-! ### Entries of a key -/

/-- Looking a key up goes past the entries of other keys. -/
theorem get?_cons (e : Bytes × FormValue) (entries : Entries) (key : Bytes) :
    get? (.map (e :: entries)) key =
      if e.1 = key then some e.2 else get? (.map entries) key := by
  by_cases h : e.1 = key
  · rw [if_pos h, get?, List.find?_cons_of_pos (by simpa using h), Option.map_some]
  · rw [if_neg h, get?, get?, List.find?_cons_of_neg (by simpa using h)]

/-- There is an entry of every key under which a value is found. -/
theorem exists_split_of_get? (h : get? (.map entries) key = some w) :
    ∃ before after, entries = before ++ (key, w) :: after ∧
      ∀ v, replace key v entries = before ++ (key, v) :: after := by
  induction entries with
  | nil => contradiction
  | cons e entries ih =>
    rw [get?_cons] at h
    by_cases hkey : e.1 = key
    · rw [if_pos hkey] at h
      refine ⟨[], entries, ?_, fun v ↦ ?_⟩
      · rw [← hkey, ← Option.some.inj h, List.nil_append]
      · rw [replace, if_pos (by simpa using hkey), hkey, List.nil_append]
    · rw [if_neg hkey] at h
      obtain ⟨before, after, rfl, hreplace⟩ := ih h
      refine ⟨e :: before, after, rfl, fun v ↦ ?_⟩
      rw [replace, if_neg (by simpa using hkey), hreplace, List.cons_append]

/-- Behind entries of other keys an entry is found under its key. -/
theorem get?_append_cons {before : Entries} (h : key ∉ before.map (·.1)) (v : FormValue)
    (after : Entries) : get? (.map (before ++ (key, v) :: after)) key = some v := by
  have hbefore : before.find? (·.1 == key) = none := by
    rw [List.find?_eq_none]
    intro e he hkey
    exact h (List.mem_map.mpr ⟨e, he, beq_iff_eq.mp hkey⟩)
  rw [get?, List.find?_append, hbefore, Option.none_or, List.find?_cons_of_pos, Option.map_some]
  exact beq_self_eq_true key

/-- There is no entry of a key under which no value is found. -/
theorem get?_eq_none_iff : get? (.map entries) key = none ↔ key ∉ entries.map (·.1) := by
  rw [get?, Option.map_eq_none_iff, List.find?_eq_none]
  constructor
  · intro h hmem
    obtain ⟨e, he, rfl⟩ := List.mem_map.mp hmem
    exact h e he (beq_self_eq_true e.1)
  · intro h e he hkey
    exact h (List.mem_map.mpr ⟨e, he, beq_iff_eq.mp hkey⟩)

end MarkupSelect.FormValue
