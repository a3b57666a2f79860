import MarkupSelect.Text.Bytes

/-!
# Matches

The elements that a search selects, keyed by the offsets of their start tags. The first claim made
for an offset stands, and the elements are listed in ascending order of their offsets. This is the
matched set of `SPEC_FULL.md` §3, in the order of §12.
-/

namespace MarkupSelect

/-- Markup keyed by offset, in ascending order of the offsets. -/
structure Matches where
  entries : List (Nat × Bytes)
  ascending : entries.Pairwise fun a b ↦ a.1 < b.1 := by simp
deriving DecidableEq

namespace Matches

/-- An ascending list with a claim for an offset, unless the offset is taken. -/
def place (offset : Nat) (markup : Bytes) : List (Nat × Bytes) → List (Nat × Bytes)
  | [] => [(offset, markup)]
  | e :: entries =>
    if offset < e.1 then (offset, markup) :: e :: entries
    else if offset = e.1 then e :: entries
    else e :: place offset markup entries

/-- The list after a claim holds what it held before, and nothing but the claim besides. -/
theorem mem_of_mem_place {offset : Nat} {markup : Bytes} {entries : List (Nat × Bytes)}
    {e : Nat × Bytes} (h : e ∈ place offset markup entries) :
    e = (offset, markup) ∨ e ∈ entries := by
  induction entries with
  | nil => simpa [place] using h
  | cons d entries ih =>
    simp only [place] at h
    split at h
    · simpa using h
    split at h
    · exact .inr h
    · rcases List.mem_cons.mp h with rfl | h
      · simp
      · rcases ih h with h | h <;> simp [h]

/-- A claim keeps the order. -/
theorem pairwise_place {offset : Nat} {markup : Bytes} {entries : List (Nat × Bytes)}
    (h : entries.Pairwise fun a b ↦ a.1 < b.1) :
    (place offset markup entries).Pairwise fun a b ↦ a.1 < b.1 := by
  induction entries with
  | nil => simp [place]
  | cons d entries ih =>
    rw [List.pairwise_cons] at h
    simp only [place]
    split
    next hlt =>
      refine List.pairwise_cons.mpr ⟨fun a ha ↦ ?_, List.pairwise_cons.mpr h⟩
      rcases List.mem_cons.mp ha with rfl | ha
      · exact hlt
      · exact Nat.lt_trans hlt (h.1 a ha)
    next hlt =>
      split
      · exact List.pairwise_cons.mpr h
      next hne =>
        refine List.pairwise_cons.mpr ⟨fun a ha ↦ ?_, ih h.2⟩
        rcases mem_of_mem_place ha with rfl | ha
        · simp only
          omega
        · exact h.1 a ha

/-- No matches. -/
def empty : Matches := ⟨[], List.Pairwise.nil⟩

/-- The number of elements. -/
def size (m : Matches) : Nat := m.entries.length

/-- Whether nothing is selected. -/
def isEmpty (m : Matches) : Bool := m.entries.isEmpty

/-- The markup at an offset. -/
def get? (m : Matches) (offset : Nat) : Option Bytes := (m.entries.find? (·.1 == offset)).map (·.2)

/-- Whether an offset is claimed. -/
def contains (m : Matches) (offset : Nat) : Bool := m.entries.any (·.1 == offset)

/-- The matches with a claim added; a claim for an offset that is taken changes nothing. -/
def insert (m : Matches) (offset : Nat) (markup : Bytes) : Matches :=
  ⟨place offset markup m.entries, pairwise_place m.ascending⟩

/-- The matches with a claim added, or `none` if its offset is taken. -/
def insertNew? (m : Matches) (offset : Nat) (markup : Bytes) : Option Matches :=
  if m.contains offset then none else some (m.insert offset markup)

/-- The element of least offset. -/
def first? (m : Matches) : Option (Nat × Bytes) := m.entries.head?

/-- The element at a position in the order of offsets. -/
def nth? (m : Matches) (index : Nat) : Option (Nat × Bytes) := m.entries[index]?

/-- The offsets, ascending. -/
def offsets (m : Matches) : List Nat := m.entries.map (·.1)

/-- The claims of a list added one by one. -/
def insertAll (m : Matches) (claims : List (Nat × Bytes)) : Matches :=
  claims.foldl (fun m e ↦ m.insert e.1 e.2) m

/-- The matches of a list of claims. -/
def ofList (claims : List (Nat × Bytes)) : Matches := empty.insertAll claims

/-- Two sets of matches as one; where both claim an offset the left one stands. -/
def union (m n : Matches) : Matches := m.insertAll n.entries

/-- One element alone. -/
def singleton (offset : Nat) (markup : Bytes) : Matches := empty.insert offset markup

@[simp] theorem entries_empty : empty.entries = [] := rfl

@[simp] theorem get?_empty (offset : Nat) : empty.get? offset = none := rfl

@[simp] theorem entries_singleton (offset : Nat) (markup : Bytes) :
    (singleton offset markup).entries = [(offset, markup)] := rfl

@[simp] theorem insertAll_nil (m : Matches) : m.insertAll [] = m := rfl

@[simp] theorem insertAll_cons (m : Matches) (e : Nat × Bytes) (claims : List (Nat × Bytes)) :
    m.insertAll (e :: claims) = (m.insert e.1 e.2).insertAll claims := rfl

/-- Claims added in two lists are those of both, added in order. -/
theorem insertAll_append (m : Matches) (cs ds : List (Nat × Bytes)) :
    m.insertAll (cs ++ ds) = (m.insertAll cs).insertAll ds := by
  simp [insertAll]

/-- Matches with the same entries are equal. -/
theorem ext_entries {m n : Matches} (h : m.entries = n.entries) : m = n := by
  cases m
  cases n
  congr

/-- Looking an offset up in a list that starts with a claim. -/
theorem find?_cons_offset (e : Nat × Bytes) (entries : List (Nat × Bytes)) (offset : Nat) :
    (e :: entries).find? (·.1 == offset) =
      if e.1 = offset then some e else entries.find? (·.1 == offset) := by
  by_cases h : e.1 = offset <;> simp [h]

/-- In a list whose offsets are all greater, an offset is not found. -/
theorem find?_eq_none_of_lt {offset : Nat} {entries : List (Nat × Bytes)}
    (h : ∀ e ∈ entries, offset < e.1) : entries.find? (·.1 == offset) = none := by
  rw [List.find?_eq_none]
  intro e he
  have := h e he
  simp
  omega

/-- After a claim, its offset has the markup that was there before, or else the one claimed; every
other offset has what it had. -/
theorem find?_place {offset : Nat} {markup : Bytes} {entries : List (Nat × Bytes)} (i : Nat)
    (h : entries.Pairwise fun a b ↦ a.1 < b.1) :
    ((place offset markup entries).find? (·.1 == i)).map (·.2) =
      ((entries.find? (·.1 == i)).map (·.2)).or (if offset = i then some markup else none) := by
  induction entries with
  | nil => by_cases hi : offset = i <;> simp [place, hi]
  | cons e entries ih =>
    rw [List.pairwise_cons] at h
    simp only [place]
    split
    next hlt =>
      by_cases hi : offset = i
      · subst hi
        have hnone : (e :: entries).find? (·.1 == offset) = none := by
          refine find?_eq_none_of_lt fun a ha ↦ ?_
          rcases List.mem_cons.mp ha with rfl | ha
          · exact hlt
          · exact Nat.lt_trans hlt (h.1 a ha)
        rw [hnone]
        simp
      · simp [find?_cons_offset, hi]
    next =>
      split
      next heq =>
        by_cases hi : offset = i
        · subst hi
          simp [← heq]
        · simp [hi]
      next hne =>
        by_cases hi : e.1 = i
        · simp [hi]
        · simp [hi, ih h.2]

/-- The first claim for an offset stands. -/
theorem get?_insert (m : Matches) (offset i : Nat) (markup : Bytes) :
    (m.insert offset markup).get? i =
      (m.get? i).or (if offset = i then some markup else none) :=
  find?_place i m.ascending

/-- An offset is claimed exactly when it has markup. -/
theorem contains_eq_isSome_get? (m : Matches) (offset : Nat) :
    m.contains offset = (m.get? offset).isSome := by
  rw [Bool.eq_iff_iff]
  simp [contains, get?]

/-- An entry is what its offset has. -/
theorem get?_eq_some_iff {m : Matches} {offset : Nat} {markup : Bytes} :
    m.get? offset = some markup ↔ (offset, markup) ∈ m.entries := by
  obtain ⟨entries, ascending⟩ := m
  simp only [get?]
  induction entries with
  | nil => simp
  | cons e entries ih =>
    rw [List.pairwise_cons] at ascending
    rw [find?_cons_offset]
    split
    next h =>
      subst h
      simp only [Option.map_some, Option.some.injEq, List.mem_cons]
      constructor
      · rintro rfl
        exact .inl rfl
      · rintro (h | h)
        · exact (congrArg (·.2) h).symm
        · have := ascending.1 _ h
          simp at this
    next h =>
      rw [ih ascending.2]
      rw [List.mem_cons]
      exact ⟨.inr, fun hmem ↦ hmem.resolve_left fun he ↦ h (congrArg (·.1) he).symm⟩

/-- Matches that have the same markup at every offset are equal. -/
theorem ext_get? {m n : Matches} (h : ∀ offset, m.get? offset = n.get? offset) : m = n := by
  have hmem : ∀ e, e ∈ m.entries ↔ e ∈ n.entries := fun e ↦ by
    rw [← get?_eq_some_iff, h, get?_eq_some_iff]
  have hperm : m.entries.Perm n.entries := by
    refine (List.perm_ext_iff_of_nodup ?_ ?_).mpr hmem
    · exact m.ascending.imp fun {a b} hab hne ↦ by
        subst hne
        exact Nat.lt_irrefl _ hab
    · exact n.ascending.imp fun {a b} hab hne ↦ by
        subst hne
        exact Nat.lt_irrefl _ hab
  exact ext_entries (hperm.eq_of_pairwise (fun a b _ _ hab hba ↦ absurd hab (Nat.lt_asymm hba))
    m.ascending n.ascending)

/-- Of several claims for one offset the first stands, behind what was there before. -/
theorem get?_insertAll (m : Matches) (claims : List (Nat × Bytes)) (offset : Nat) :
    (m.insertAll claims).get? offset =
      (m.get? offset).or ((claims.find? (·.1 == offset)).map (·.2)) := by
  induction claims generalizing m with
  | nil => simp
  | cons e claims ih =>
    rw [insertAll_cons, ih, get?_insert, find?_cons_offset, Option.or_assoc]
    by_cases h : e.1 = offset <;> simp [h]

/-- In a union the left set comes first. -/
theorem get?_union (m n : Matches) (offset : Nat) :
    (m.union n).get? offset = (m.get? offset).or (n.get? offset) :=
  get?_insertAll m n.entries offset

end Matches

end MarkupSelect
