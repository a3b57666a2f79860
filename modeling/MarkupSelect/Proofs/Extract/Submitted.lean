import MarkupSelect.Proofs.Extract.Index
import MarkupSelect.Proofs.Extract.Texts
import MarkupSelect.Proofs.Matches

/-!
# The fields that are submitted

Merging the fields of controls keeps those of different keys apart: the fields under some keys are
those of the controls that lead there. So the fields that other submit buttons have made can be
taken away, where they share their keys with no other control; where they share one, what is taken
away is more or less than their own.
-/

namespace MarkupSelect

namespace FormValue

variable {target entries : Entries} {key : Bytes} {v : FormValue} {P : Bytes → Bool}

/-! ### Entries under some keys -/

/-- The entries under some keys. -/
def under (P : Bytes → Bool) (entries : Entries) : Entries := entries.filter fun e ↦ P e.1

@[simp] theorem under_nil (P : Bytes → Bool) : under P [] = [] := rfl

/-- An entry in front is under the keys if its own key is one of them. -/
theorem under_cons (P : Bytes → Bool) (e : Bytes × FormValue) (entries : Entries) :
    under P (e :: entries) = if P e.1 then e :: under P entries else under P entries :=
  List.filter_cons

/-- An entry at the end is under the keys if its own key is one of them. -/
theorem under_concat (P : Bytes → Bool) (entries : Entries) (key : Bytes) (v : FormValue) :
    under P (entries ++ [(key, v)]) =
      if P key then under P entries ++ [(key, v)] else under P entries := by
  rw [under, List.filter_append, ← under, ← under, under_cons]
  split
  · rfl
  · exact List.append_nil _

/-- An entry is under its key. -/
theorem mem_under {e : Bytes × FormValue} : e ∈ under P entries ↔ e ∈ entries ∧ P e.1 = true :=
  List.mem_filter

/-- What is found under a key is found among the entries under some keys that it is one of. -/
theorem get?_under (hkey : P key = true) (entries : Entries) :
    get? (.map (under P entries)) key = get? (.map entries) key := by
  induction entries with
  | nil => rfl
  | cons e entries ih =>
    rw [under_cons, get?_cons]
    split
    · rw [get?_cons, ih]
    · next he =>
      have hne : e.1 ≠ key := by
        rintro rfl
        exact he hkey
      rw [if_neg hne, ih]

private theorem under_replace (key : Bytes) (v : FormValue) (entries : Entries) :
    under P (replace key v entries) =
      if P key then replace key v (under P entries) else under P entries := by
  induction entries with
  | nil => simp [replace]
  | cons e entries ih =>
    rw [replace]
    by_cases hkey : e.1 = key
    · subst hkey
      rw [if_pos (beq_self_eq_true _), under_cons, under_cons]
      split
      · rw [replace, if_pos (beq_self_eq_true _)]
      · rfl
    · have hbeq : ¬ (e.1 == key) = true := by simpa using hkey
      rw [if_neg hbeq, under_cons, under_cons, ih]
      split
      · rw [replace, if_neg hbeq]
        split
        · rfl
        · rfl
      · rfl

private theorem nextIndex_under (hP : ∀ key, isIndex key = true → P key = true)
    (entries : Entries) : nextIndex (under P entries) = nextIndex entries := by
  have hsame : (under P entries).filterMap (fun e ↦ index? e.1) =
      entries.filterMap fun e ↦ index? e.1 := by
    rw [under, List.filterMap_filter]
    apply List.filterMap_congr
    intro e _
    split
    · rfl
    · next he =>
      have hnot : isIndex e.1 = false := by
        rw [Bool.eq_false_iff]
        exact fun h ↦ he (hP e.1 h)
      rw [index?, hnot, Bool.false_and, if_neg Bool.false_ne_true]
  rw [nextIndex, nextIndex, hsame]

/-- Some keys of which all numbers are or none is. -/
def TakesNumbersAsOne (P : Bytes → Bool) : Prop :=
  (∀ key, isIndex key = true → P key = true) ∨ ∀ key, isIndex key = true → P key = false

/-- Under some keys stands what is merged there, and nothing that is merged elsewhere. -/
theorem under_mergeEntries (hP : TakesNumbersAsOne P) (target : Entries) (key : Bytes)
    (v : FormValue) : under P (mergeEntries target [(key, v)]) =
      if P key then mergeEntries (under P target) [(key, v)] else under P target := by
  cases hindex : isIndex key with
  | true =>
    have hnext := isIndex_indexKey (nextIndex target)
    rw [mergeEntries_index hindex, append, under_concat]
    rcases hP with hall | hnone
    · rw [if_pos (hall _ hnext), if_pos (hall key hindex), mergeEntries_index hindex, append,
        nextIndex_under hall]
    · rw [if_neg (by simp [hnone _ hnext]), if_neg (by simp [hnone key hindex])]
  | false =>
    cases hget : get? (.map target) key with
    | some w =>
      rw [mergeEntries_present hindex hget, under_replace]
      split
      · next hkey => rw [mergeEntries_present hindex ((get?_under hkey target).trans hget)]
      · rfl
    | none =>
      rw [mergeEntries_fresh hindex hget, under_concat]
      split
      · next hkey => rw [mergeEntries_fresh hindex ((get?_under hkey target).trans hget)]
      · rfl

/-- The key under which a field of a name stands: the first of its path. -/
def rootKey (name : Bytes) : Bytes :=
  let key := (path name).headD []
  if key.isEmpty then [Ascii.zero] else key

/-- A field is one entry under its key. -/
theorem field_eq (name : Bytes) (v : FormValue) :
    field name v = [(rootKey name, nested v (path name).tail)] := by
  have hne : path name ≠ [] := by simp [path]
  obtain ⟨key, keys, hpath⟩ := List.exists_cons_of_ne_nil hne
  rw [field, rootKey, hpath, nested, toEntries, List.headD_cons, List.tail_cons]

end FormValue

namespace Form

open FormValue

/-! ### Controls under some keys -/

/-- The name of a control that is written with one. -/
def name? (control : Bytes) : Option Bytes :=
  (AttributeMap.ofMarkup control).value? (Bytes.ofString "name")

/-- The key under which the field of a control stands, if it has one. -/
def key? (control : Bytes) : Option Bytes := (name? control).map rootKey

/-- The fields of some elements, merged in their order. -/
def merged (elements : List (Nat × Bytes)) : Entries := (elements.map (·.2)).foldl addControl []

/-- A control without a key has no field. -/
theorem addControl_of_none {control : Bytes} (h : key? control = none) (fields : Entries) :
    addControl fields control = fields := by
  rw [key?, name?, Option.map_eq_none_iff] at h
  rw [addControl, h]

/-- A control with a key merges one entry under it. -/
theorem exists_addControl {control key : Bytes} (h : key? control = some key) :
    ∃ v, ∀ fields, addControl fields control = mergeEntries fields [(key, v)] := by
  obtain ⟨name, hname, rfl⟩ := Option.map_eq_some_iff.mp h
  refine ⟨nested (controlValue control) (path name).tail, fun fields ↦ ?_⟩
  rw [name?] at hname
  rw [addControl, hname]
  exact congrArg (mergeEntries fields) (field_eq name _)

/-- The fields under some keys are those of the controls that lead there. -/
theorem under_merged {P : Bytes → Bool} (hP : TakesNumbersAsOne P) (elements : List (Nat × Bytes)) :
    under P (merged elements) = merged (elements.filter fun e ↦ (key? e.2).any P) := by
  have hfold : ∀ fields, under P ((elements.map (·.2)).foldl addControl fields) =
      ((elements.filter fun e ↦ (key? e.2).any P).map (·.2)).foldl addControl (under P fields) := by
    induction elements with
    | nil => exact fun fields ↦ rfl
    | cons e elements ih =>
      intro fields
      rw [List.map_cons, List.foldl_cons, ih, List.filter_cons]
      cases hkey : key? e.2 with
      | none => rw [addControl_of_none hkey, Option.any_none, if_neg Bool.false_ne_true]
      | some key =>
        obtain ⟨v, hadd⟩ := exists_addControl hkey
        rw [hadd, under_mergeEntries hP, Option.any_some]
        split
        · rw [List.map_cons, List.foldl_cons, hadd]
        · rfl
  exact hfold []

/-- Controls without a key make no difference. -/
theorem merged_filter_congr {p q : Nat × Bytes → Bool} {elements : List (Nat × Bytes)}
    (h : ∀ e ∈ elements, key? e.2 ≠ none → p e = q e) :
    merged (elements.filter p) = merged (elements.filter q) := by
  have hkeyed : ∀ elements, merged elements =
      merged (elements.filter fun e ↦ (key? e.2).any fun _ ↦ true) := by
    intro elements
    rw [← under_merged (.inl fun _ _ ↦ rfl), under, List.filter_true]
  rw [hkeyed (elements.filter p), hkeyed (elements.filter q), List.filter_filter,
    List.filter_filter]
  refine congrArg merged (List.filter_congr fun e he ↦ ?_)
  cases hkey : key? e.2 with
  | none => rfl
  | some key => rw [h e he (by simp [hkey])]

/-- The fields under a key that is no number are those of the controls that lead there. -/
theorem under_key_merged {key : Bytes} (hindex : isIndex key = false)
    (elements : List (Nat × Bytes)) :
    under (· == key) (merged elements) = merged (elements.filter fun e ↦ key? e.2 == some key) := by
  have hnumbers : TakesNumbersAsOne (· == key) := by
    refine .inr fun number hnumber ↦ ?_
    rw [beq_eq_false_iff_ne]
    rintro rfl
    rw [hindex] at hnumber
    contradiction
  rw [under_merged hnumbers]
  refine congrArg merged (List.filter_congr fun e _ ↦ ?_)
  cases key? e.2 with
  | none => rfl
  | some other => rw [Option.any_some, Option.some_beq_some]

/-- A field under a key that is no number is that of a control that leads there. -/
theorem exists_of_mem_merged {elements : List (Nat × Bytes)} {f : Bytes × FormValue}
    (hf : f ∈ merged elements) (hindex : isIndex f.1 = false) :
    ∃ e ∈ elements, key? e.2 = some f.1 := by
  have hmem : f ∈ under (· == f.1) (merged elements) := mem_under.mpr ⟨hf, beq_self_eq_true _⟩
  rw [under_key_merged hindex] at hmem
  by_contra hnone
  have hempty : (elements.filter fun e ↦ key? e.2 == some f.1) = [] := by
    rw [List.filter_eq_nil_iff]
    intro e he hkey
    exact hnone ⟨e, he, beq_iff_eq.mp hkey⟩
  rw [hempty] at hmem
  contradiction

/-- Where no control leads to a number no field stands under one. -/
theorem isIndex_of_mem_merged {elements : List (Nat × Bytes)}
    (h : ∀ e ∈ elements, (key? e.2).any isIndex = false) {f : Bytes × FormValue}
    (hf : f ∈ merged elements) : isIndex f.1 = false := by
  rw [Bool.eq_false_iff]
  intro hindex
  have hmem : f ∈ under isIndex (merged elements) := mem_under.mpr ⟨hf, hindex⟩
  have hempty : (elements.filter fun e ↦ (key? e.2).any isIndex) = [] := by
    rw [List.filter_eq_nil_iff]
    intro e he
    rw [h e he]
    exact Bool.false_ne_true
  rw [under_merged (.inl fun key hkey ↦ hkey), hempty] at hmem
  contradiction

/-! ### Other submit buttons -/

/-- The elements that a text selects in a selection, with their offsets. -/
def selected (s : Selection) (text : String) : List (Nat × Bytes) := (s.find text).elements.entries

/-- Whether an element is a submit button of another name than that of the trigger. -/
def isOther (s : Selection) (trigger : Bytes) (e : Nat × Bytes) : Bool :=
  (selected s submitButtons).contains e && name? e.2 != some trigger

/-- The controls without the submit buttons of other names than that of the trigger. -/
def kept (s : Selection) (trigger : Bytes) : List (Nat × Bytes) :=
  (selected s controls).filter fun e ↦ !isOther s trigger e

/-- Whether no other submit button among the controls leads to a key. -/
def isFree (s : Selection) (trigger key : Bytes) : Bool :=
  !(selected s controls).any fun c ↦ isOther s trigger c && key? c.2 == some key

/-- A key is not free if another submit button leads there. -/
theorem isFree_eq_false_iff {s : Selection} {trigger key : Bytes} :
    isFree s trigger key = false ↔
      ∃ c ∈ selected s controls, isOther s trigger c = true ∧ key? c.2 = some key := by
  simp [isFree]

/-- The submit buttons stand apart from the other controls, and from each other, by their keys. -/
@[mk_iff] structure SubmitsApart (s : Selection) (trigger : Bytes) : Prop where
  /-- A submit button is a control, or no control leads where it leads. -/
  control : ∀ b ∈ selected s submitButtons, b ∈ selected s controls ∨
    ∀ c ∈ selected s controls, key? c.2 = key? b.2 → key? b.2 = none
  /-- No submit button leads to a number. -/
  number : ∀ b ∈ selected s submitButtons, (key? b.2).any isIndex = false
  /-- A submit button with the name of the trigger stands under this name. -/
  own : ∀ b ∈ selected s submitButtons, name? b.2 = some trigger → rootKey trigger = trigger
  /-- No other submit button stands under the name of the trigger. -/
  other : ∀ c ∈ selected s controls, isOther s trigger c = true → key? c.2 ≠ some trigger
  /-- No other submit button leads where a control leads that is kept. -/
  apart : ∀ c ∈ selected s controls, isOther s trigger c = true → ∀ d ∈ kept s trigger,
    key? d.2 = key? c.2 → key? c.2 = none

namespace SubmitsApart

variable {s : Selection} {trigger key : Bytes} {c : Nat × Bytes} {f : Bytes × FormValue}

private theorem mem_of_isOther (hother : isOther s trigger c = true) :
    c ∈ selected s submitButtons := by
  rw [isOther, Bool.and_eq_true] at hother
  simpa using hother.1

private theorem under_eq (h : SubmitsApart s trigger) (hc : c ∈ selected s controls)
    (hother : isOther s trigger c = true) (hkey : key? c.2 = some key)
    (hindex : isIndex key = false) :
    under (· == key) (merged (selected s controls)) =
      under (· == key) (merged (selected s submitButtons)) := by
  rw [under_key_merged hindex, under_key_merged hindex]
  refine congrArg merged (Matches.filter_entries_eq fun e ↦ ?_)
  simp only [beq_iff_eq]
  constructor
  · rintro ⟨he, hsame⟩
    refine ⟨?_, hsame⟩
    by_contra hnot
    have hkept : e ∈ kept s trigger := by
      rw [kept, List.mem_filter]
      refine ⟨he, ?_⟩
      rw [isOther, Bool.not_eq_true', Bool.and_eq_false_iff]
      exact .inl (by simpa [selected] using hnot)
    have hnone := h.apart c hc hother e hkept (hsame.trans hkey.symm)
    exact Option.some_ne_none _ (hkey.symm.trans hnone)
  · rintro ⟨he, hsame⟩
    refine ⟨(h.control e he).resolve_right fun hfree ↦ ?_, hsame⟩
    have hnone := hfree c hc (hkey.trans hsame.symm)
    exact Option.some_ne_none _ (hsame.symm.trans hnone)

private theorem contains_iff (h : SubmitsApart s trigger)
    (hf : f ∈ merged (selected s controls)) :
    ((merged (selected s submitButtons)).filter (·.1 != trigger)).contains f = true ↔
      isFree s trigger f.1 = false := by
  rw [List.contains_iff_mem, List.mem_filter, isFree_eq_false_iff]
  constructor
  · rintro ⟨hmem, htrigger⟩
    have hindex := isIndex_of_mem_merged h.number hmem
    obtain ⟨b, hb, hbkey⟩ := exists_of_mem_merged hmem hindex
    obtain ⟨c, hc, hckey⟩ := exists_of_mem_merged hf hindex
    have hcontrol : b ∈ selected s controls := by
      refine (h.control b hb).resolve_right fun hfree ↦ ?_
      have hnone := hfree c hc (hckey.trans hbkey.symm)
      exact Option.some_ne_none _ (hbkey.symm.trans hnone)
    refine ⟨b, hcontrol, ?_, hbkey⟩
    rw [isOther, Bool.and_eq_true]
    refine ⟨by simpa using hb, ?_⟩
    rw [bne_iff_ne]
    intro hname
    -- It would stand under the name of the trigger.
    rw [key?, hname, Option.map_some, h.own b hb hname] at hbkey
    rw [bne_iff_ne] at htrigger
    exact htrigger (Option.some.inj hbkey).symm
  · rintro ⟨c, hc, hother, hkey⟩
    have hindex : isIndex f.1 = false := by
      have hnumber := h.number c (mem_of_isOther hother)
      rwa [hkey, Option.any_some] at hnumber
    have hunder : f ∈ under (· == f.1) (merged (selected s controls)) :=
      mem_under.mpr ⟨hf, beq_self_eq_true _⟩
    rw [h.under_eq hc hother hkey hindex] at hunder
    refine ⟨(mem_under.mp hunder).1, ?_⟩
    rw [bne_iff_ne]
    intro htrigger
    rw [htrigger] at hkey
    exact h.other c hc hother hkey

private theorem isOther_iff (h : SubmitsApart s trigger) (hc : c ∈ selected s controls)
    (hkey : key? c.2 = some key) : isOther s trigger c = true ↔ isFree s trigger key = false := by
  rw [isFree_eq_false_iff]
  constructor
  · exact fun hother ↦ ⟨c, hc, hother, hkey⟩
  · rintro ⟨d, hd, hother, hdkey⟩
    by_contra hnot
    have hkept : c ∈ kept s trigger := by
      rw [kept, List.mem_filter]
      exact ⟨hc, by simpa using hnot⟩
    have hnone := h.apart d hd hother c hkept (hkey.trans hdkey.symm)
    exact Option.some_ne_none _ (hdkey.symm.trans hnone)

private theorem takesNumbersAsOne (h : SubmitsApart s trigger) :
    TakesNumbersAsOne (isFree s trigger) := by
  refine .inl fun key hindex ↦ ?_
  rw [← Bool.not_eq_false, isFree_eq_false_iff]
  rintro ⟨c, hc, hother, hkey⟩
  have hnumber := h.number c (mem_of_isOther hother)
  rw [hkey, Option.any_some, hindex] at hnumber
  exact Bool.false_ne_true hnumber.symm

private theorem submitted_eq_under (h : SubmitsApart s trigger) :
    submitted s trigger = under (isFree s trigger) (merged (selected s controls)) := by
  refine List.filter_congr fun f hf ↦ ?_
  rw [Bool.eq_iff_iff, Bool.not_eq_true', ← Bool.not_eq_true, ← Bool.not_eq_false (isFree _ _ _)]
  exact not_congr (h.contains_iff hf)

end SubmitsApart

/-- Where the submit buttons stand apart by their keys, what is submitted are the fields of the
controls without the other submit buttons: none of the texts of those, and all texts of the controls
that are kept. -/
theorem submitted_eq_merged {s : Selection} {trigger : Bytes} (h : SubmitsApart s trigger) :
    submitted s trigger = merged (kept s trigger) ∧
      texts (.map (submitted s trigger)) =
        ((((kept s trigger).map (·.2)).filter isNamed).map fun control ↦
          (ownTexts control : Multiset Bytes)).sum := by
  have hkept : submitted s trigger = merged (kept s trigger) := by
    rw [h.submitted_eq_under, under_merged h.takesNumbersAsOne, kept]
    refine merged_filter_congr fun c hc hkey ↦ ?_
    obtain ⟨key, hkey⟩ := Option.ne_none_iff_exists'.mp hkey
    rw [hkey, Option.any_some, Bool.eq_iff_iff, Bool.not_eq_true', ← Bool.not_eq_true,
      ← Bool.not_eq_false (isFree _ _ _), h.isOther_iff hc hkey]
  refine ⟨hkept, ?_⟩
  rw [hkept, texts, merged, textsOfEntries_foldl_addControl, textsOfEntries, zero_add]

/-- A field with a path of keys, the button that submits, and another one. -/
theorem submitted_eq_merged_save :
    let s := Selection.ofDocument (Bytes.ofString
      "<input name=a[b]><input type=submit name=d><input type=submit name=e>")
    let d := Bytes.ofString "d"
    SubmitsApart s d ∧
      merged (kept s d) = [(Bytes.ofString "a", .map [(Bytes.ofString "b", .value none)]),
        (d, .value none)] ∧
      submitted s d = merged (kept s d) ∧
      texts (.map (submitted s d)) =
        ((((kept s d).map (·.2)).filter isNamed).map fun control ↦
          (ownTexts control : Multiset Bytes)).sum := by
  intro s d
  obtain ⟨hcontrols, hbuttons⟩ :
      selected s controls = [(0, Bytes.ofString "<input name=a[b]>"),
        (17, Bytes.ofString "<input type=submit name=d>"),
        (43, Bytes.ofString "<input type=submit name=e>")] ∧
      selected s submitButtons = [(17, Bytes.ofString "<input type=submit name=d>"),
        (43, Bytes.ofString "<input type=submit name=e>")] := by decide +kernel
  have hvalues : SubmitsApart s d ∧ merged (kept s d) =
      [(Bytes.ofString "a", .map [(Bytes.ofString "b", .value none)]), (d, .value none)] := by
    rw [submitsApart_iff]
    simp only [kept, isOther, hcontrols, hbuttons]
    decide +kernel
  exact ⟨hvalues.1, hvalues.2, submitted_eq_merged hvalues.1⟩

/-- The button that submits is taken away itself if its name is a path of keys. -/
theorem submitted_path_ne :
    let s := Selection.ofDocument (Bytes.ofString "<input type=submit name=a[b]>")
    let trigger := Bytes.ofString "a[b]"
    submitted s trigger = [] ∧ merged (kept s trigger) =
      [(Bytes.ofString "a", .map [(Bytes.ofString "b", .value none)])] := by
  decide +kernel

end Form

end MarkupSelect
