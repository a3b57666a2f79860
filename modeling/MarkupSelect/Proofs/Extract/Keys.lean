import Mathlib.Data.List.Nodup
import MarkupSelect.Proofs.Extract.Index
import MarkupSelect.Proofs.Extract.Merged

/-!
# The keys of a form

Merging gives no key twice, at any depth, so that every entry is found under its key: entries of one
name are merged, and a number is given once. Only behind the last of all indexes the numbers begin
again, and `0` may be given a second time.
-/

namespace MarkupSelect

namespace FormValue

variable {target others result entries : Entries} {keys : List Bytes} {key : Bytes}
  {v w : FormValue} {P Q : Entries → Prop}

/-! ### Entries at every depth -/

/-- A property holds of the entries of a value and of those in it, at every depth. -/
inductive Everywhere (P : Entries → Prop) : FormValue → Prop
  | value (text : Option Bytes) : Everywhere P (.value text)
  | map {entries : Entries} (h : P entries) (hs : ∀ e ∈ entries, Everywhere P e.2) :
      Everywhere P (.map entries)

/-- What follows from a property everywhere holds everywhere. -/
theorem Everywhere.imp (h : Everywhere P v) (hPQ : ∀ entries, P entries → Q entries) :
    Everywhere Q v := by
  induction h with
  | value text => exact .value text
  | map h _ ih => exact .map (hPQ _ h) ih

/-! ### Keys -/

/-- Keys of which none is there twice; only behind the last index `0` may be. -/
structure IsApart (keys : List Bytes) : Prop where
  twice : keys.Pairwise fun key key' ↦ key = key' → key = [Ascii.zero]
  nodup : lastKey ∉ keys → keys.Nodup

/-- Keys of which none is there twice are apart. -/
theorem isApart_of_nodup (h : keys.Nodup) : IsApart keys :=
  ⟨h.imp fun hne heq ↦ absurd heq hne, fun _ ↦ h⟩

/-- One more key is a new one, or `0` behind the last index. -/
theorem IsApart.concat (h : IsApart keys)
    (hkey : key ∉ keys ∨ lastKey ∈ keys ∧ key = [Ascii.zero]) : IsApart (keys ++ [key]) := by
  constructor
  · rw [List.pairwise_append]
    refine ⟨h.twice, List.pairwise_singleton _ _, fun key' hmem key'' hlast heq ↦ ?_⟩
    rw [List.mem_singleton] at hlast
    subst hlast heq
    exact hkey.elim (absurd hmem) (·.2)
  · intro hlast
    rw [List.mem_append, not_or] at hlast
    have hnew : key ∉ keys := hkey.resolve_right fun hwrap ↦ hlast.1 hwrap.1
    rw [← List.concat_eq_append]
    exact .concat hnew (h.nodup hlast.1)

/-- Entries whose keys are apart, so that each is found under its key, if that is not `0` or the
last index is not in use. -/
structure IsKeyed (entries : Entries) : Prop where
  apart : IsApart (entries.map (·.1))
  found : ∀ e ∈ entries, (e.1 = [Ascii.zero] → lastKey ∉ entries.map (·.1)) →
    get? (.map entries) e.1 = some e.2

/-- Where the keys are apart each entry is found under its key. -/
theorem isKeyed_of_isApart (h : IsApart (entries.map (·.1))) : IsKeyed entries := by
  refine ⟨h, fun e he hzero ↦ ?_⟩
  obtain ⟨before, after, rfl⟩ := List.append_of_mem he
  rw [List.map_append, List.map_cons] at h hzero
  apply get?_append_cons
  intro hmem
  have htwice := (List.pairwise_append.mp h.twice).2.2 e.1 hmem e.1 List.mem_cons_self rfl
  have hnodup := h.nodup (hzero htwice)
  exact (List.pairwise_append.mp hnodup).2.2 e.1 hmem e.1 List.mem_cons_self rfl

/-! ### Merging -/

/-- The keys of a value are apart at every depth. -/
def ApartThroughout (v : FormValue) : Prop := v.Everywhere fun entries ↦ IsApart (entries.map (·.1))

/-- An entry by itself has its key alone. -/
theorem ApartThroughout.singleton (hv : v.ApartThroughout) (key : Bytes) :
    (FormValue.map [(key, v)]).ApartThroughout :=
  .map (isApart_of_nodup (List.nodup_singleton key)) (List.forall_mem_singleton.mpr hv)

/-- The entries that a value stands for have keys that are apart. -/
theorem ApartThroughout.toEntries (hv : v.ApartThroughout) :
    (FormValue.map v.toEntries).ApartThroughout := by
  cases v with
  | map entries => exact hv
  | value text =>
    cases text with
    | none => exact .map (isApart_of_nodup List.nodup_nil) (List.forall_mem_nil _)
    | some text => exact .singleton hv _

/-- The values of entries have keys that are apart. -/
theorem ApartThroughout.of_mem (h : (FormValue.map entries).ApartThroughout)
    {e : Bytes × FormValue} (he : e ∈ entries) : e.2.ApartThroughout := by
  cases h with
  | map _ hvalues => exact hvalues e he

/-- An entry of one more key goes behind all others. -/
theorem ApartThroughout.concat (h : (FormValue.map entries).ApartThroughout)
    (hv : v.ApartThroughout)
    (hkey : key ∉ entries.map (·.1) ∨ lastKey ∈ entries.map (·.1) ∧ key = [Ascii.zero]) :
    (FormValue.map (entries ++ [(key, v)])).ApartThroughout := by
  cases h with
  | map hkeys hvalues =>
    refine .map ?_ ?_
    · rw [List.map_append]
      exact hkeys.concat hkey
    · rw [List.forall_mem_append]
      exact ⟨hvalues, List.forall_mem_singleton.mpr hv⟩

/-- Under the next number an entry goes behind all others. -/
theorem ApartThroughout.append (h : (FormValue.map entries).ApartThroughout)
    (hv : v.ApartThroughout) : (FormValue.map (append entries v)).ApartThroughout := by
  refine h.concat hv ((nextIndex_cases entries).imp_right fun hwrap ↦ ⟨hwrap.1, ?_⟩)
  rw [hwrap.2]
  rfl

/-- In the place of a value another one has its key. -/
theorem ApartThroughout.replace (h : (FormValue.map entries).ApartThroughout)
    (hget : get? (.map entries) key = some w) (hv : v.ApartThroughout) :
    (FormValue.map (replace key v entries)).ApartThroughout := by
  obtain ⟨before, after, rfl, hreplace⟩ := exists_split_of_get? hget
  rw [hreplace]
  cases h with
  | map hkeys hvalues =>
    simp only [List.map_append, List.map_cons, List.forall_mem_append, List.forall_mem_cons]
      at hkeys hvalues
    refine .map ?_ ?_
    · simpa using hkeys
    · rw [List.forall_mem_append, List.forall_mem_cons]
      exact ⟨hvalues.1, hv, hvalues.2.2⟩

/-- Merging keeps keys apart. -/
theorem Merges.apartThroughout (h : Merges target others result)
    (htarget : (FormValue.map target).ApartThroughout)
    (hothers : ∀ e ∈ others, e.2.ApartThroughout) :
    (FormValue.map result).ApartThroughout := by
  induction h with
  | nil => exact htarget
  | index _ _ ih =>
    rw [List.forall_mem_cons] at hothers
    exact ih (htarget.append hothers.1) hothers.2
  | @present target others result both key v w _ hget _ _ hboth ih =>
    rw [List.forall_mem_cons] at hothers
    obtain ⟨before, after, hsplit, -⟩ := exists_split_of_get? hget
    have hw : w.ApartThroughout :=
      htarget.of_mem (e := (key, w)) (by rw [hsplit]; exact List.mem_append_cons_self)
    have hmerged := hboth hw.toEntries fun e he ↦ hothers.1.toEntries.of_mem he
    exact ih (htarget.replace hget hmerged) hothers.2
  | fresh _ hget _ ih =>
    rw [List.forall_mem_cons] at hothers
    exact ih (htarget.concat hothers.1 (.inl (get?_eq_none_iff.mp hget))) hothers.2

/-- Under a path of keys each key is alone. -/
theorem ApartThroughout.nested (hv : v.ApartThroughout) (keys : List Bytes) :
    (nested v keys).ApartThroughout := by
  induction keys with
  | nil => exact hv
  | cons key keys ih => exact .singleton ih _

/-- Values numbered in a row have keys that are apart. -/
theorem apartThroughout_mapIdx (values : List Bytes) :
    (FormValue.map (values.mapIdx fun i value ↦
      (indexKey i, .value (some value)))).ApartThroughout := by
  refine .map (isApart_of_nodup ?_) ?_
  · rw [List.Nodup, List.pairwise_iff_getElem]
    intro i j hi hj hlt
    simp only [List.getElem_map, List.getElem_mapIdx]
    exact indexKey_injective.ne (Nat.ne_of_lt hlt)
  · intro e he
    obtain ⟨i, hi, rfl⟩ := List.mem_mapIdx.mp he
    exact .value _

end FormValue

namespace Form

open FormValue

/-- The keys in the value of a control are apart. -/
theorem apartThroughout_controlValue (control : Bytes) :
    (controlValue control).ApartThroughout := by
  unfold controlValue selectValue
  dsimp only
  split
  · split
    · exact .value none
    · exact apartThroughout_mapIdx _
  · split <;> exact .value _

/-- A control keeps the keys of the fields apart. -/
theorem apartThroughout_addControl {fields : Entries} {control : Bytes}
    (h : (FormValue.map fields).ApartThroughout) :
    (FormValue.map (addControl fields control)).ApartThroughout := by
  unfold addControl
  split
  · exact h
  · next name _ =>
    have hfield := ((apartThroughout_controlValue control).nested (path name)).toEntries
    exact (merges_mergeEntries _ _).apartThroughout h fun e he ↦ hfield.of_mem he

/-- Every entry of a form, at any depth, is found under its key: no key is there twice, but for `0`
where the last index is in use. -/
theorem isKeyed_fields (s : Selection) (selector : Option String) :
    (FormValue.map (fields s selector)).Everywhere IsKeyed := by
  have hfields : (FormValue.map (fields s selector)).ApartThroughout := by
    refine List.foldlRecOn (motive := fun fields ↦ (FormValue.map fields).ApartThroughout)
      _ _ ?_ ?_
    · exact .map (isApart_of_nodup List.nodup_nil) (List.forall_mem_nil _)
    · exact fun fields h control _ ↦ apartThroughout_addControl h
  exact hfields.imp fun entries ↦ isKeyed_of_isApart

/-- Behind the last index two entries have the number `0`, and the second is not found. -/
theorem fields_last_index :
    let doc := "<p name=a[18446744073709551615]><p name=a[] value=x><p name=a[] value=y>"
    let x := FormValue.value (some (Bytes.ofString "x"))
    let y := FormValue.value (some (Bytes.ofString "y"))
    let zero := Bytes.ofString "0"
    let entries := [(lastKey, .value none), (zero, x), (zero, y)]
    fields (Selection.ofDocument (Bytes.ofString doc)) (some "p") =
        [(Bytes.ofString "a", .map entries)] ∧
      ¬ (entries.map (·.1)).Nodup ∧ get? (.map entries) zero ≠ some y := by
  decide +kernel

end Form

end MarkupSelect
