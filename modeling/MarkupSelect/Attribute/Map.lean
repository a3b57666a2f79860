import MarkupSelect.Tag

/-!
# Ordered attribute maps

The attributes of one start tag in the order written. A name written without `=` is present without
a value, which differs from an empty value. Of the attributes whose names agree but for letter case
the first keeps its place. The map is that of `SPEC_FULL.md` §3.
-/

namespace MarkupSelect

/-- Names with their values in the order written, an attribute without a value with `none`. No two
names agree, letter case ignored. -/
structure AttributeMap where
  entries : List (Bytes × Option Bytes)
  distinct : entries.Pairwise fun a b ↦ Bytes.agree a.1 b.1 = false := by simp
deriving DecidableEq

namespace AttributeMap

/-- The map without attributes. -/
def empty : AttributeMap := ⟨[], List.Pairwise.nil⟩

/-- The number of attributes. -/
def size (m : AttributeMap) : Nat := m.entries.length

/-- Whether there are no attributes. -/
def isEmpty (m : AttributeMap) : Bool := m.entries.isEmpty

/-- The value of an attribute: `none` if it is absent, `some none` if it is written without a
value. -/
def get? (m : AttributeMap) (name : Bytes) : Option (Option Bytes) :=
  (m.entries.find? fun e ↦ Bytes.agree e.1 name).map (·.2)

/-- Whether an attribute is present, with a value or without. -/
def contains (m : AttributeMap) (name : Bytes) : Bool := m.entries.any fun e ↦ Bytes.agree e.1 name

/-- The value of an attribute that is present and has one. -/
def value? (m : AttributeMap) (name : Bytes) : Option Bytes := (m.get? name).join

/-- The value of an attribute taken out of the map, if the attribute is present and has one. -/
def extract? (m : AttributeMap) (name : Bytes) : Option Bytes :=
  (m.entries.find? fun e ↦ Bytes.agree e.1 name).bind (·.2)

/-- The map with one more attribute at its end; `none` if an attribute of that name keeps its
place. -/
def insertNew? (m : AttributeMap) (name : Bytes) (value : Option Bytes) : Option AttributeMap :=
  if h : m.contains name = false then
    some ⟨m.entries ++ [(name, value)], by
      rw [List.pairwise_append]
      refine ⟨m.distinct, by simp, fun a ha b hb ↦ ?_⟩
      simp only [List.mem_singleton] at hb
      subst hb
      exact Bool.not_eq_true _ ▸ List.any_eq_false.mp h a ha⟩
  else none

/-- The map with an attribute added, unless one of that name is present. -/
def insert (m : AttributeMap) (name : Bytes) (value : Option Bytes) : AttributeMap :=
  (m.insertNew? name value).getD m

/-- The attributes whose names pass a test. -/
def retain (m : AttributeMap) (keep : Bytes → Bool) : AttributeMap :=
  ⟨m.entries.filter fun e ↦ keep e.1, m.distinct.filter _⟩

/-- The map of a list of attributes, of which the first of a name is kept. -/
def ofList (attributes : List (Bytes × Option Bytes)) : AttributeMap :=
  attributes.foldl (fun m e ↦ m.insert e.1 e.2) empty

/-- Maps with the same entries are equal. -/
theorem ext {m n : AttributeMap} (h : m.entries = n.entries) : m = n := by
  cases m
  cases n
  congr

@[simp] theorem entries_empty : empty.entries = [] := rfl

/-- An insertion appends to the entries or leaves them. -/
theorem entries_insert (m : AttributeMap) (name : Bytes) (value : Option Bytes) :
    (m.insert name value).entries =
      if m.contains name then m.entries else m.entries ++ [(name, value)] := by
  unfold insert insertNew?
  by_cases h : m.contains name = false
  · simp [h]
  · simp [h]

@[simp] theorem entries_retain (m : AttributeMap) (keep : Bytes → Bool) :
    (m.retain keep).entries = m.entries.filter fun e ↦ keep e.1 := rfl

/-- An attribute is present exactly when it can be looked up. -/
theorem contains_eq_isSome_get? (m : AttributeMap) (name : Bytes) :
    m.contains name = (m.get? name).isSome := by
  rw [Bool.eq_iff_iff]
  simp [contains, get?, List.any_eq_true]

/-- What is taken out of the map is the value that can be looked up in it. -/
theorem extract?_eq_value? (m : AttributeMap) (name : Bytes) : m.extract? name = m.value? name := by
  rw [extract?, value?, get?]
  cases m.entries.find? fun e ↦ Bytes.agree e.1 name with
  | none => rfl
  | some e => rfl

/-- Names that agree find the same attribute. -/
theorem get?_congr (m : AttributeMap) {s t : Bytes} (h : s.agree t = true) :
    m.get? s = m.get? t := by
  simp only [get?, Bytes.agree_comm _ s, Bytes.agree_comm _ t, Bytes.agree_congr h]

/-- The first attribute of a name stands. -/
theorem get?_insert (m : AttributeMap) (name n : Bytes) (value : Option Bytes) :
    (m.insert name value).get? n =
      (m.get? n).or (if name.agree n then some value else none) := by
  by_cases hc : m.contains name = true
  · have hsame : m.insert name value = m := ext (by simp [entries_insert, hc])
    rw [hsame]
    split
    next h =>
      rw [contains_eq_isSome_get?, get?_congr m h] at hc
      rw [Option.or_eq_left_of_isSome hc]
    next => simp
  · simp only [get?, entries_insert, hc]
    by_cases h : name.agree n
    · cases hf : m.entries.find? fun e ↦ e.1.agree n <;> simp [h, hf]
    · simp [h]

end AttributeMap

end MarkupSelect
