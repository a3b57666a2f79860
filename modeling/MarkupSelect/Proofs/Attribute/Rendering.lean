import MarkupSelect.Proofs.Attribute.Layout

/-!
# Writing attributes

Attributes with plain names and values are written behind a tag name, each with a blank in front of
it and its value, if it has one, in quotes. Reading undoes this writing.
-/

namespace MarkupSelect

namespace Attribute

/-- What is written of a value behind the name: nothing, or `=` and the value in quotes. -/
def renderValue : Option Bytes → Bytes
  | none => []
  | some value => Ascii.equals :: Ascii.doubleQuote :: (value ++ [Ascii.doubleQuote])

/-- An attribute as it is written: a blank, the name and the value. -/
def render (a : Bytes × Option Bytes) : Bytes := Ascii.space :: (a.1 ++ renderValue a.2)

/-- The attributes one behind the other. -/
def renderAll (attributes : List (Bytes × Option Bytes)) : Bytes := attributes.flatMap render

/-- A byte of a plain name: a lower case letter, a digit, `-` or `_`. -/
def isPlainByte (b : UInt8) : Bool :=
  Ascii.isLower b || Ascii.isDigit b || b == Ascii.hyphen || b == Ascii.underscore

/-- An attribute that can be written: the name is plain, and the value needs no escape. -/
structure IsPlain (a : Bytes × Option Bytes) : Prop where
  name_ne_nil : a.1 ≠ []
  name_bytes : a.1.all isPlainByte = true
  value_bytes : ∀ value ∈ a.2,
    Ascii.doubleQuote ∉ value ∧ Ascii.less ∉ value ∧ Ascii.greater ∉ value

/-! ### Plain names -/

/-- A byte of a plain name can stand in a name, in lower case, and is no angle bracket. -/
theorem plainByte_facts {b : UInt8} (h : isPlainByte b = true) :
    (b < 0x80 ∧ isNameByte b = true ∧ Ascii.isUpper b = false) ∧
      b ≠ Ascii.less ∧ b ≠ Ascii.greater :=
  Ascii.forall_byte (p := fun b ↦ isPlainByte b = true →
    (b < 0x80 ∧ isNameByte b = true ∧ Ascii.isUpper b = false) ∧
      b ≠ Ascii.less ∧ b ≠ Ascii.greater) (by decide +kernel) b h

/-- A plain name is in lower case. -/
theorem lower_of_plain {name : Bytes} (h : name.all isPlainByte = true) : name.lower = name := by
  have hbyte : ∀ b ∈ name, Ascii.toLower b = b := by
    intro b hb
    exact Ascii.toLower_of_not_isUpper (plainByte_facts (List.all_eq_true.mp h b hb)).1.2.2
  exact (List.map_congr_left hbyte).trans (List.map_id _)

/-- A plain name is a name that can be read back. -/
theorem IsPlain.isName {a : Bytes × Option Bytes} (h : IsPlain a) : isName a.1 = true := by
  rw [Attribute.isName, Bool.and_eq_true]
  constructor
  · simpa using h.name_ne_nil
  · rw [List.all_eq_true]
    intro b hb
    exact (plainByte_facts (List.all_eq_true.mp h.name_bytes b hb)).1.2.1

/-- Written attributes hold no angle bracket. -/
theorem not_mem_renderAll {attributes : List (Bytes × Option Bytes)}
    (h : ∀ a ∈ attributes, IsPlain a) :
    Ascii.less ∉ renderAll attributes ∧ Ascii.greater ∉ renderAll attributes := by
  have hone : ∀ a, IsPlain a → ∀ b ∈ render a, b ≠ Ascii.less ∧ b ≠ Ascii.greater := by
    intro a ha b hb
    rcases List.mem_cons.mp hb with rfl | hb
    · decide
    rcases List.mem_append.mp hb with hb | hb
    · exact (plainByte_facts (List.all_eq_true.mp ha.name_bytes b hb)).2
    cases hv : a.2 with
    | none =>
      rw [hv] at hb
      contradiction
    | some value =>
      rw [hv] at hb
      obtain ⟨-, hless, hgreater⟩ := ha.value_bytes value hv
      simp only [renderValue, List.mem_cons, List.mem_append, List.not_mem_nil, or_false] at hb
      rcases hb with rfl | rfl | hb | rfl
      · decide
      · decide
      · exact ⟨fun he ↦ hless (he ▸ hb), fun he ↦ hgreater (he ▸ hb)⟩
      · decide
  constructor
  · intro hmem
    obtain ⟨a, ha, hb⟩ := List.mem_flatMap.mp hmem
    exact (hone a (h a ha) _ hb).1 rfl
  · intro hmem
    obtain ⟨a, ha, hb⟩ := List.mem_flatMap.mp hmem
    exact (hone a (h a ha) _ hb).2 rfl

/-! ### Reading what was written -/

private theorem exists_entry {a : Bytes × Option Bytes} (h : IsPlain a) :
    ∃ e : Layout.Entry, e.gap.bytes ≠ [] ∧ e.text = render a ∧ e.read = a := by
  let none : Layout.Gap := ⟨[], List.forall_mem_nil _⟩
  let blank : Layout.Gap := ⟨[Ascii.space], List.forall_mem_singleton.mpr rfl⟩
  have hlow : ∀ b ∈ a.1, b < 0x80 ∧ isNameByte b = true ∧ Ascii.isUpper b = false :=
    fun b hb ↦ (plainByte_facts (List.all_eq_true.mp h.name_bytes b hb)).1
  obtain ⟨name, value⟩ := a
  cases value with
  | none => exact ⟨⟨blank, ⟨name, h.name_ne_nil, hlow⟩, .none⟩, List.cons_ne_nil _ _, rfl, rfl⟩
  | some value =>
    obtain ⟨hquote, -, hgreater⟩ := h.value_bytes value rfl
    exact ⟨⟨blank, ⟨name, h.name_ne_nil, hlow⟩,
      .quoted none ⟨Ascii.doubleQuote, rfl, value, hquote, hgreater⟩⟩, List.cons_ne_nil _ _, rfl,
      rfl⟩

private theorem exists_layout {attributes : List (Bytes × Option Bytes)}
    (h : ∀ a ∈ attributes, IsPlain a) :
    ∃ entries, (∀ quoted, Layout.Separated quoted entries) ∧
      Layout.text entries = renderAll attributes ∧ entries.map Layout.Entry.read = attributes := by
  induction attributes with
  | nil => exact ⟨[], fun _ ↦ trivial, rfl, rfl⟩
  | cons a attributes ih =>
    rw [List.forall_mem_cons] at h
    obtain ⟨e, hgap, htext, hread⟩ := exists_entry h.1
    obtain ⟨entries, hseparated, htexts, hreads⟩ := ih h.2
    refine ⟨e :: entries, fun _ ↦ ⟨.inr hgap, hseparated _⟩, ?_, ?_⟩
    · rw [Layout.text, List.flatMap_cons, ← Layout.text, htext, htexts]
      rfl
    · rw [List.map_cons, hread, hreads]

/-- Reading written attributes gives the attributes back. -/
theorem named_renderAll {attributes : List (Bytes × Option Bytes)}
    (h : ∀ a ∈ attributes, IsPlain a) : named (renderAll attributes) = attributes := by
  obtain ⟨entries, hseparated, htext, hread⟩ := exists_layout h
  let none : Layout.Gap := ⟨[], List.forall_mem_nil _⟩
  have hnamed := Layout.named_text (hseparated false) ⟨none, false, none⟩
  have hending : Layout.Ending.text ⟨none, false, none⟩ = [] := rfl
  rw [hending, List.append_nil, htext, hread] at hnamed
  exact hnamed

end Attribute

namespace AttributeMap

/-- The map of the entries of a map is that map. -/
theorem ofList_entries (m : AttributeMap) : ofList m.entries = m := by
  apply AttributeMap.ext
  exact entries_ofList m.distinct

/-- The attributes of a start tag in which a plain map was written are that map. -/
theorem ofStartTag_of_renderAll {m : AttributeMap} (h : ∀ a ∈ m.entries, Attribute.IsPlain a)
    {tag : StartTag} (hm : tag.attributes = Attribute.renderAll m.entries) :
    ofStartTag tag = m := by
  rw [ofStartTag, hm, Attribute.named_renderAll h, ofList_entries]

/-- Where a plain map was written, all names are valid. -/
theorem ofMarkupValid_of_renderAll {m : AttributeMap} (h : ∀ a ∈ m.entries, Attribute.IsPlain a)
    {markup : Bytes} {tag : StartTag} (htag : StartTag.ofMarkup? markup = some tag)
    (hm : tag.attributes = Attribute.renderAll m.entries) : ofMarkupValid markup = m := by
  have hread : ofMarkup markup = m := by
    rw [ofMarkup, htag]
    exact ofStartTag_of_renderAll h hm
  apply AttributeMap.ext
  rw [ofMarkupValid, hread, entries_retain, List.filter_eq_self]
  intro a ha
  exact (h a ha).isName

/-- Two entries of a map whose names agree are one. -/
theorem eq_of_agree (m : AttributeMap) {a b : Bytes × Option Bytes} (ha : a ∈ m.entries)
    (hb : b ∈ m.entries) (h : Bytes.agree a.1 b.1 = true) : a = b := by
  have hbefore : m.entries.Pairwise fun c d ↦ Bytes.agree c.1 d.1 = true → c = d := by
    apply m.distinct.imp
    intro c d hcd hagree
    rw [hcd] at hagree
    contradiction
  have hbehind : m.entries.Pairwise fun c d ↦ Bytes.agree d.1 c.1 = true → d = c := by
    apply m.distinct.imp
    intro c d hcd hagree
    rw [Bytes.agree_comm, hcd] at hagree
    contradiction
  exact hbefore.forall_of_forall_of_flip (fun _ _ _ ↦ rfl) hbehind ha hb h

/-- In a plain map a name in lower case is looked up letter by letter. -/
theorem get?_eq_some_iff {m : AttributeMap} (h : ∀ a ∈ m.entries, Attribute.IsPlain a)
    {name : Bytes} (hname : name.lower = name) {value : Option Bytes} :
    m.get? name = some value ↔ (name, value) ∈ m.entries := by
  have hsame : ∀ a ∈ m.entries, Bytes.agree a.1 name = true ↔ a.1 = name := by
    intro a ha
    rw [Bytes.agree_iff, Attribute.lower_of_plain (h a ha).name_bytes, hname]
  constructor
  · intro hget
    obtain ⟨a, ha, rfl⟩ := Option.map_eq_some_iff.mp hget
    have hmem := List.mem_of_find?_eq_some ha
    have hagree := (hsame a hmem).mp (by simpa using List.find?_some ha)
    rw [← hagree]
    exact hmem
  · intro hmem
    have hsome : (m.get? name).isSome = true := by
      rw [← contains_eq_isSome_get?, AttributeMap.contains, List.any_eq_true]
      exact ⟨_, hmem, Bytes.agree_refl name⟩
    obtain ⟨other, hother⟩ := Option.isSome_iff_exists.mp hsome
    obtain ⟨a, ha, hvalue⟩ := Option.map_eq_some_iff.mp hother
    have hmem' := List.mem_of_find?_eq_some ha
    have hagree : Bytes.agree a.1 name = true := by simpa using List.find?_some ha
    rw [hother, ← hvalue, m.eq_of_agree hmem' hmem hagree]

end AttributeMap

end MarkupSelect
