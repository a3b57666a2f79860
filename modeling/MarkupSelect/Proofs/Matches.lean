import MarkupSelect.Matches

/-!
# Which claims stand

Of a list of claims every entry that results is one; every claim results if no two claims for one
offset differ.
-/

namespace MarkupSelect.Matches

/-- No two claims for one offset differ. -/
def Consistent (claims : List (Nat × Bytes)) : Prop :=
  ∀ a ∈ claims, ∀ b ∈ claims, a.1 = b.1 → a = b

/-- The entries are those that a lookup finds. -/
theorem mem_entries_iff {m : Matches} {e : Nat × Bytes} : e ∈ m.entries ↔ m.get? e.1 = some e.2 :=
  get?_eq_some_iff.symm

/-- The entries do not differ at one offset. -/
theorem consistent_entries (m : Matches) : Consistent m.entries := by
  intro a ha b hb hab
  rw [mem_entries_iff] at ha hb
  rw [hab, hb] at ha
  exact Prod.ext hab (Option.some.inj ha).symm

/-- Matches that hold the same entries are equal. -/
theorem ext_mem {m n : Matches} (h : ∀ e, e ∈ m.entries ↔ e ∈ n.entries) : m = n :=
  ext_get? fun offset ↦ Option.ext fun markup ↦ by
    rw [get?_eq_some_iff, h, get?_eq_some_iff]

/-- The entries are an ascending list if they have its members. -/
theorem entries_eq_of_mem_iff {m : Matches} {entries : List (Nat × Bytes)}
    (hascending : entries.Pairwise fun a b ↦ a.1 < b.1) (h : ∀ e, e ∈ m.entries ↔ e ∈ entries) :
    m.entries = entries := congrArg Matches.entries (ext_mem (n := ⟨entries, hascending⟩) h)

/-- Of two sets those entries are the same, in their order, that have the same members. -/
theorem filter_entries_eq {m n : Matches} {p q : Nat × Bytes → Bool}
    (h : ∀ e, e ∈ m.entries ∧ p e = true ↔ e ∈ n.entries ∧ q e = true) :
    m.entries.filter p = n.entries.filter q := by
  apply entries_eq_of_mem_iff (m := ⟨m.entries.filter p, m.ascending.filter p⟩)
    (n.ascending.filter q)
  intro e
  rw [List.mem_filter, List.mem_filter]
  exact h e

/-- An entry after claims was there before or is one of the claims. -/
theorem mem_insertAll {m : Matches} {claims : List (Nat × Bytes)} {e : Nat × Bytes}
    (h : e ∈ (m.insertAll claims).entries) : e ∈ m.entries ∨ e ∈ claims := by
  rw [mem_entries_iff, get?_insertAll, Option.or_eq_some_iff] at h
  rcases h with h | ⟨-, h⟩
  · exact .inl (mem_entries_iff.mpr h)
  · obtain ⟨c, hc, hmarkup⟩ := Option.map_eq_some_iff.mp h
    have hoffset : c.1 = e.1 := by simpa using List.find?_some hc
    have : c = e := Prod.ext hoffset hmarkup
    exact .inr (this ▸ List.mem_of_find?_eq_some hc)

/-- Nothing but the claims stands in the end. -/
theorem mem_of_mem_ofList {claims : List (Nat × Bytes)} {e : Nat × Bytes}
    (h : e ∈ (ofList claims).entries) : e ∈ claims := by
  simpa using mem_insertAll h

/-- A union holds nothing but what the two sets hold. -/
theorem mem_of_mem_union {m n : Matches} {e : Nat × Bytes} (h : e ∈ (m.union n).entries) :
    e ∈ m.entries ∨ e ∈ n.entries := mem_insertAll h

/-- If no two claims differ, what was there and all claims stand. -/
theorem mem_insertAll_iff {m : Matches} {claims : List (Nat × Bytes)} {e : Nat × Bytes}
    (hc : Consistent (m.entries ++ claims)) :
    e ∈ (m.insertAll claims).entries ↔ e ∈ m.entries ∨ e ∈ claims := by
  refine ⟨mem_insertAll, fun h ↦ ?_⟩
  rw [mem_entries_iff, get?_insertAll]
  cases hm : m.get? e.1 with
  | some markup =>
    have hold : (e.1, markup) ∈ m.entries := mem_entries_iff.mpr hm
    have heq := hc (e.1, markup) (List.mem_append_left _ hold) e (List.mem_append.mpr h) rfl
    rw [Option.some_or, ← heq]
  | none =>
    have hclaim : e ∈ claims := h.resolve_left fun hold ↦ by
      rw [mem_entries_iff, hm] at hold
      contradiction
    rw [Option.none_or]
    cases hf : claims.find? (·.1 == e.1) with
    | none =>
      have := List.find?_eq_none.mp hf e hclaim
      simp at this
    | some c =>
      have hoffset : c.1 = e.1 := by simpa using List.find?_some hf
      have heq := hc c (List.mem_append_right _ (List.mem_of_find?_eq_some hf)) e
        (List.mem_append_right _ hclaim) hoffset
      rw [Option.map_some, heq]

/-- If no two claims differ, all stand. -/
theorem mem_ofList_iff {claims : List (Nat × Bytes)} {e : Nat × Bytes} (hc : Consistent claims) :
    e ∈ (ofList claims).entries ↔ e ∈ claims := by
  rw [ofList, mem_insertAll_iff (by simpa using hc)]
  simp

/-- Claims that ascend stand as they are. -/
theorem entries_ofList {claims : List (Nat × Bytes)} (h : claims.Pairwise fun a b ↦ a.1 < b.1) :
    (ofList claims).entries = claims := by
  apply entries_eq_of_mem_iff h
  exact fun e ↦ mem_ofList_iff (consistent_entries ⟨claims, h⟩)

/-- If the two sets do not differ where they overlap, a union holds both. -/
theorem mem_union_iff {m n : Matches} {e : Nat × Bytes} (hc : Consistent (m.entries ++ n.entries)) :
    e ∈ (m.union n).entries ↔ e ∈ m.entries ∨ e ∈ n.entries := mem_insertAll_iff hc

/-- After a claim there is what was there before, and the claim if its offset was free. -/
theorem mem_insert_iff {m : Matches} {offset : Nat} {markup : Bytes} {e : Nat × Bytes}
    (hfree : m.contains offset = false) :
    e ∈ (m.insert offset markup).entries ↔ e ∈ m.entries ∨ e = (offset, markup) := by
  rw [contains_eq_isSome_get?, Option.isSome_eq_false_iff, Option.isNone_iff_eq_none] at hfree
  rw [mem_entries_iff, mem_entries_iff, get?_insert, Prod.ext_iff]
  by_cases h : offset = e.1
  · subst h
    simp [hfree, eq_comm]
  · simp [h, eq_comm]

/-- A union with nothing is the other set. -/
@[simp] theorem empty_union (m : Matches) : empty.union m = m := by
  apply ext_get?
  simp [get?_union]

/-! ### Unions of many -/

variable {α : Type} {search : α → Matches} {xs : List α}

/-- A union of many sets holds nothing but what they hold. -/
theorem exists_of_mem_foldl_union {found : Matches} {e : Nat × Bytes}
    (h : e ∈ (xs.foldl (fun found x ↦ found.union (search x)) found).entries) :
    e ∈ found.entries ∨ ∃ x ∈ xs, e ∈ (search x).entries := by
  induction xs generalizing found with
  | nil => exact .inl h
  | cons x xs ih =>
    rcases ih h with h | ⟨y, hy, hmem⟩
    · rcases mem_of_mem_union h with h | h
      · exact .inl h
      · exact .inr ⟨x, List.mem_cons_self, h⟩
    · exact .inr ⟨y, List.mem_cons_of_mem _ hy, hmem⟩

/-- In a union of many sets the first that has an offset counts, behind what was there before. -/
theorem get?_foldl_union (xs : List α) (found : Matches) (offset : Nat) :
    (xs.foldl (fun found x ↦ found.union (search x)) found).get? offset =
      (found.get? offset).or (xs.findSome? fun x ↦ (search x).get? offset) := by
  induction xs generalizing found with
  | nil => simp
  | cons x xs ih =>
    rw [List.foldl_cons, ih, get?_union, Option.or_assoc, List.findSome?_cons]
    cases (search x).get? offset <;> rfl

/-- If all that the sets hold has a property by which an offset has one entry, a union of them holds
all of it. -/
theorem mem_foldl_union_iff {P : Nat × Bytes → Prop} (hP : ∀ d e, P d → P e → d.1 = e.1 → d = e)
    {found : Matches} (hfound : ∀ e ∈ found.entries, P e)
    (hsearch : ∀ x ∈ xs, ∀ e ∈ (search x).entries, P e) {e : Nat × Bytes} :
    e ∈ (xs.foldl (fun found x ↦ found.union (search x)) found).entries ↔
      e ∈ found.entries ∨ ∃ x ∈ xs, e ∈ (search x).entries := by
  constructor
  · exact exists_of_mem_foldl_union
  intro h
  induction xs generalizing found with
  | nil =>
    rcases h with h | ⟨x, hx, -⟩
    · exact h
    · contradiction
  | cons x xs ih =>
    have hhead := hsearch x List.mem_cons_self
    have hall : ∀ d ∈ found.entries ++ (search x).entries, P d := by
      intro d hd
      rcases List.mem_append.mp hd with hd | hd
      · exact hfound d hd
      · exact hhead d hd
    have hunion : ∀ d, d ∈ (found.union (search x)).entries ↔
        d ∈ found.entries ∨ d ∈ (search x).entries := by
      intro d
      apply mem_union_iff
      intro a ha b hb hab
      exact hP a b (hall a ha) (hall b hb) hab
    apply ih
    · intro d hd
      exact hall d (List.mem_append.mpr ((hunion d).mp hd))
    · intro y hy
      exact hsearch y (List.mem_cons_of_mem _ hy)
    · rcases h with h | ⟨y, hy, hmem⟩
      · exact .inl ((hunion e).mpr (.inl h))
      · rcases List.mem_cons.mp hy with rfl | hy
        · exact .inl ((hunion e).mpr (.inr hmem))
        · exact .inr ⟨y, hy, hmem⟩

end MarkupSelect.Matches
