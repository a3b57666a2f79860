import Mathlib.Data.List.Sort
import MarkupSelect.Proofs.Matches

/-!
# First claims

Whatever is done to a set of matches, claims made one by one, whole sets taken in, new sets
collected, it holds for each offset the first claim that was made, and all that can be asked of it
is told by the list of those claims in the order of their offsets. So of two claims that differ the
one made first stands, and a union depends on its order only in what the markup is, not where.
-/

namespace MarkupSelect.Matches

/-- An entry is the first of some claims for its offset. -/
def IsFirst (claims : List (Nat × Bytes)) (e : Nat × Bytes) : Prop :=
  ∃ earlier later, claims = earlier ++ e :: later ∧ ∀ c ∈ earlier, c.1 ≠ e.1

/-- The markup that is claimed first for an offset. -/
def firstClaim? (claims : List (Nat × Bytes)) (offset : Nat) : Option Bytes :=
  (claims.find? (·.1 == offset)).map (·.2)

/-- The first claim for each offset, in the order in which they are made. -/
def firstClaims : List (Nat × Bytes) → List (Nat × Bytes)
  | [] => []
  | e :: claims => e :: (firstClaims claims).filter (·.1 != e.1)

/-- The first claim for each offset, in the order of the offsets. -/
def standing (claims : List (Nat × Bytes)) : List (Nat × Bytes) :=
  (firstClaims claims).mergeSort (·.1 ≤ ·.1)

/-- All that can be asked of a set of matches is told by a list: what an iteration runs through, the
offsets, the element at an index, what an offset has, the size, and whether a claim is refused,
which then changes nothing. -/
structure IsToldBy (m : Matches) (list : List (Nat × Bytes)) : Prop where
  entries_eq : m.entries = list
  offsets_eq : m.offsets = list.map (·.1)
  nth?_eq (index : Nat) : m.nth? index = list[index]?
  first?_eq : m.first? = list[0]?
  get?_eq_some (offset : Nat) (markup : Bytes) :
    m.get? offset = some markup ↔ (offset, markup) ∈ list
  contains_iff (offset : Nat) : m.contains offset = true ↔ offset ∈ list.map (·.1)
  size_eq : m.size = list.length
  isEmpty_iff : m.isEmpty = true ↔ list = []
  insertNew?_eq (offset : Nat) (markup : Bytes) :
    m.insertNew? offset markup =
      if offset ∈ list.map (·.1) then none else some (m.insert offset markup)
  insert_eq_self (offset : Nat) (markup : Bytes) :
    offset ∈ list.map (·.1) → m.insert offset markup = m

/-- What can be done to a set of matches: claim an offset, take in another set, or collect claims
into a new set instead. -/
inductive Operation where
  | insert (offset : Nat) (markup : Bytes)
  | union (other : Matches)
  | collect (claims : List (Nat × Bytes))

/-- The set that an operation gives. -/
def Operation.apply (m : Matches) : Operation → Matches
  | .insert offset markup => m.insert offset markup
  | .union other => m.union other
  | .collect claims => ofList claims

/-- The claims for a set after an operation, behind those made before; a set taken in claims with
its entries, and a new set knows no claims but its own. -/
def Operation.claims (earlier : List (Nat × Bytes)) : Operation → List (Nat × Bytes)
  | .insert offset markup => earlier ++ [(offset, markup)]
  | .union other => earlier ++ other.entries
  | .collect claims => claims

/-- The set after some operations on the empty set. -/
def run (operations : List Operation) : Matches := operations.foldl Operation.apply empty

/-- The claims that operations on the empty set make, in their order. -/
def claimsOf (operations : List Operation) : List (Nat × Bytes) :=
  operations.foldl Operation.claims []

/-! ### First claims in a list -/

variable {claims : List (Nat × Bytes)} {e : Nat × Bytes}

/-- A claim in front is the first one for its offset and changes nothing for the others. -/
theorem firstClaim?_cons (e : Nat × Bytes) (claims : List (Nat × Bytes)) (offset : Nat) :
    firstClaim? (e :: claims) offset =
      if e.1 = offset then some e.2 else firstClaim? claims offset := by
  rw [firstClaim?, find?_cons_offset]
  split <;> rfl

/-- Of claims made in two turns those of the first turn come first. -/
theorem firstClaim?_append (earlier later : List (Nat × Bytes)) (offset : Nat) :
    firstClaim? (earlier ++ later) offset =
      (firstClaim? earlier offset).or (firstClaim? later offset) := by
  simp only [firstClaim?, List.find?_append, Option.map_or]

/-- What is found for an offset is the claim that no other for it precedes. -/
theorem firstClaim?_eq_some_iff : firstClaim? claims e.1 = some e.2 ↔ IsFirst claims e := by
  rw [firstClaim?, Option.map_eq_some_iff]
  constructor
  · rintro ⟨c, hfound, hmarkup⟩
    obtain ⟨hoffset, earlier, later, heq, hearlier⟩ := List.find?_eq_some_iff_append.mp hfound
    have hc : c = e := Prod.ext (by simpa using hoffset) hmarkup
    subst hc
    exact ⟨earlier, later, heq, by simpa using hearlier⟩
  · rintro ⟨earlier, later, heq, hearlier⟩
    refine ⟨e, List.find?_eq_some_iff_append.mpr ⟨by simp, earlier, later, heq, ?_⟩, rfl⟩
    simpa using hearlier

/-- The first claims are those that are found for their offsets. -/
theorem mem_firstClaims_iff : e ∈ firstClaims claims ↔ firstClaim? claims e.1 = some e.2 := by
  induction claims with
  | nil => simp [firstClaims, firstClaim?]
  | cons c claims ih =>
    rw [firstClaims, List.mem_cons, List.mem_filter, ih, firstClaim?_cons]
    by_cases h : c.1 = e.1
    · simp [h, Prod.ext_iff, eq_comm]
    · have hne : e ≠ c := fun he ↦ h (congrArg Prod.fst he.symm)
      simp [h, hne, Ne.symm h]

/-- No offset has two first claims. -/
theorem distinct_firstClaims (claims : List (Nat × Bytes)) :
    (firstClaims claims).Pairwise fun a b ↦ a.1 ≠ b.1 := by
  induction claims with
  | nil => simp [firstClaims]
  | cons c claims ih =>
    rw [firstClaims, List.pairwise_cons]
    refine ⟨fun a ha hsame ↦ ?_, ih.filter _⟩
    have hother := (List.mem_filter.mp ha).2
    simp [hsame] at hother

/-- The claims that stand are the first ones for their offsets. -/
theorem mem_standing_iff : e ∈ standing claims ↔ IsFirst claims e := by
  rw [standing, List.mem_mergeSort, mem_firstClaims_iff, firstClaim?_eq_some_iff]

/-- The claims that stand are in strictly ascending order of their offsets. -/
theorem ascending_standing (claims : List (Nat × Bytes)) :
    (standing claims).Pairwise fun a b ↦ a.1 < b.1 := by
  have hsorted : (standing claims).Pairwise fun a b ↦ decide (a.1 ≤ b.1) = true := by
    apply List.pairwise_mergeSort
    · intro a b c hab hbc
      simp only [decide_eq_true_eq] at hab hbc ⊢
      exact Nat.le_trans hab hbc
    · intro a b
      simpa using Nat.le_total a.1 b.1
  -- The sort alone leaves room for two entries at one offset, which first claims do not have.
  have hdistinct : (standing claims).Pairwise fun a b ↦ a.1 ≠ b.1 :=
    ((List.mergeSort_perm _ _).pairwise_iff Ne.symm).mpr (distinct_firstClaims claims)
  refine hsorted.imp₂ (fun a b hle hne ↦ ?_) hdistinct
  exact Nat.lt_of_le_of_ne (of_decide_eq_true hle) hne

/-! ### Operations -/

variable {m n : Matches} {later : List (Nat × Bytes)}

/-- A set holds for each offset the first of some claims. -/
def Records (m : Matches) (claims : List (Nat × Bytes)) : Prop :=
  ∀ offset, m.get? offset = firstClaim? claims offset

/-- A set records its own entries. -/
theorem records_entries (m : Matches) : m.Records m.entries := fun _ ↦ rfl

/-- Claims added to a set are made behind those that it records. -/
theorem Records.insertAll (h : m.Records claims) (later : List (Nat × Bytes)) :
    (m.insertAll later).Records (claims ++ later) := by
  intro offset
  rw [firstClaim?_append, ← h]
  exact get?_insertAll m later offset

/-- A union records the claims for the other set behind those for the first. -/
theorem Records.union (h : m.Records claims) (hn : n.Records later) :
    (m.union n).Records (claims ++ later) := by
  intro offset
  rw [get?_union, h, hn, firstClaim?_append]

/-- What an operation gives records the claims that it makes. -/
theorem Records.apply (h : m.Records claims) (operation : Operation) :
    (operation.apply m).Records (operation.claims claims) := by
  cases operation with
  | insert offset markup => exact h.insertAll [(offset, markup)]
  | union other => exact h.union other.records_entries
  | collect collected => exact empty.records_entries.insertAll collected

/-- After any operations on a set it records the claims that they make. -/
theorem Records.foldl (h : m.Records claims) (operations : List Operation) :
    (operations.foldl Operation.apply m).Records (operations.foldl Operation.claims claims) := by
  induction operations generalizing m claims with
  | nil => exact h
  | cons operation operations ih => exact ih (h.apply operation)

/-- After any operations on the empty set it records the claims that they make. -/
theorem records_run (operations : List Operation) :
    (run operations).Records (claimsOf operations) :=
  empty.records_entries.foldl operations

/-- The entries are the claims that stand of those recorded. -/
theorem Records.entries_eq (h : m.Records claims) : m.entries = standing claims := by
  apply entries_eq_of_mem_iff (ascending_standing claims)
  intro e
  rw [mem_entries_iff, h, firstClaim?_eq_some_iff, mem_standing_iff]

/-! ### What can be asked of a set -/

/-- An offset is claimed exactly if it is listed. -/
theorem contains_iff_mem_offsets {offset : Nat} :
    m.contains offset = true ↔ offset ∈ m.offsets := by
  simp [contains, offsets]

/-- A claim for an offset that is taken changes nothing. -/
theorem insert_of_mem_offsets {offset : Nat} (h : offset ∈ m.offsets) (markup : Bytes) :
    m.insert offset markup = m := by
  rw [← contains_iff_mem_offsets, contains_eq_isSome_get?, Option.isSome_iff_exists] at h
  obtain ⟨held, hget⟩ := h
  apply ext_get?
  intro i
  rw [get?_insert]
  split
  next hi => rw [← hi, hget, Option.some_or]
  next => rw [Option.or_none]

/-- A set is told by its entries. -/
theorem isToldBy_entries (m : Matches) : m.IsToldBy m.entries where
  entries_eq := rfl
  offsets_eq := rfl
  nth?_eq _ := rfl
  first?_eq := List.head?_eq_getElem?
  get?_eq_some _ _ := get?_eq_some_iff
  contains_iff _ := contains_iff_mem_offsets
  size_eq := rfl
  isEmpty_iff := List.isEmpty_iff
  insertNew?_eq offset markup := by
    rw [insertNew?]
    simp only [contains_iff_mem_offsets, offsets]
  insert_eq_self _ markup h := insert_of_mem_offsets h markup

/-- A set is told by the claims that stand of those recorded. -/
theorem Records.isToldBy (h : m.Records claims) : m.IsToldBy (standing claims) :=
  h.entries_eq ▸ m.isToldBy_entries

/-! ### Unions -/

/-- Unions can be grouped in any way. -/
theorem union_assoc (m n k : Matches) : (m.union n).union k = m.union (n.union k) := by
  apply ext_get?
  intro offset
  rw [get?_union, get?_union, get?_union, get?_union, Option.or_assoc]

/-- The union of a set with itself is that set. -/
theorem union_self (m : Matches) : m.union m = m := by
  apply ext_get?
  intro offset
  rw [get?_union, Option.or_self]

/-- A union claims the offsets that either set claims. -/
theorem mem_offsets_union {offset : Nat} :
    offset ∈ (m.union n).offsets ↔ offset ∈ m.offsets ∨ offset ∈ n.offsets := by
  simp only [← contains_iff_mem_offsets, contains_eq_isSome_get?, get?_union, Option.isSome_or,
    Bool.or_eq_true]

/-- The offsets are strictly ascending. -/
theorem pairwise_offsets (m : Matches) : m.offsets.Pairwise (· < ·) :=
  List.pairwise_map.mpr m.ascending

/-- The offsets of a union do not depend on which set comes first. -/
theorem offsets_union_comm (m n : Matches) : (m.union n).offsets = (n.union m).offsets := by
  apply (pairwise_offsets _).eq_of_mem_iff (pairwise_offsets _)
  intro offset
  rw [mem_offsets_union, mem_offsets_union, or_comm]

/-- The markup does. -/
example :
    (singleton 0 [1]).union (singleton 0 [2]) ≠ (singleton 0 [2]).union (singleton 0 [1]) := by
  decide

/-! ### All operations and all questions -/

/-- Whatever is done to the empty set, all that can be asked of the outcome is told by the first
claims for each offset, in the order of the offsets, each once. For that it makes no difference
whether a set that is taken in claims with its entries or with all claims that were made for it.
Unions can be grouped in any way, a union of a set with itself is that set, and the offsets of a
union do not depend on which set comes first. -/
theorem isToldBy_run (operations : List Operation) :
    (run operations).IsToldBy (standing (claimsOf operations)) ∧
    (∀ e, e ∈ standing (claimsOf operations) ↔ IsFirst (claimsOf operations) e) ∧
    (standing (claimsOf operations)).Pairwise (fun a b ↦ a.1 < b.1) ∧
    ((standing (claimsOf operations)).map (·.1)).Nodup ∧
    (∀ others, ((run operations).union (run others)).IsToldBy
      (standing (claimsOf operations ++ claimsOf others))) ∧
    ∀ m n k : Matches, (m.union n).union k = m.union (n.union k) ∧ m.union m = m ∧
      (m.union n).offsets = (n.union m).offsets := by
  have hascending := ascending_standing (claimsOf operations)
  refine ⟨(records_run operations).isToldBy, fun e ↦ mem_standing_iff, hascending, ?_, ?_, ?_⟩
  · exact List.pairwise_map.mpr (hascending.imp Nat.ne_of_lt)
  · intro others
    exact ((records_run operations).union (records_run others)).isToldBy
  · intro m n k
    exact ⟨union_assoc m n k, union_self m, offsets_union_comm m n⟩

/-- The claims behind the first for an offset are lost, also those of a set taken in. -/
example : (run [.collect [(20, [1]), (3, [2]), (20, [3])], .union (singleton 3 [4]),
    .insert 9 [5]]).entries = [(3, [2]), (9, [5]), (20, [1])] := by decide

end MarkupSelect.Matches
