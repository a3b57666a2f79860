import Mathlib.Data.List.Forall2
import MarkupSelect.Condition.Reading
import MarkupSelect.Proofs.Text.LetterCase

/-!
# Anchors of conditions

A condition comes about by reading a text or from a list of atoms, and then none of its groups is
empty. So a group that holds of attributes finds its first field among them, and the first fields of
all groups are enough to come upon everything that meets the condition.
-/

namespace MarkupSelect.Condition

variable {c d : Condition} {attributes : AttributeMap}

/-! ### How conditions come about -/

/-- A condition that was read from a text, or that asks for all atoms of a list. -/
inductive IsFormed : Condition → Prop
  | read {text : String} {c : Condition} (h : read text = .ok c) : IsFormed c
  | all (atoms : List Atom) : IsFormed (all atoms)

/-- If all items of a list are read, each item of the result was read from the one in its place. -/
theorem forall₂_of_mapM {α β ε : Type} {f : α → Except ε β} {xs : List α} {ys : List β}
    (h : xs.mapM f = .ok ys) : List.Forall₂ (fun x y ↦ f x = .ok y) xs ys := by
  induction xs generalizing ys with
  | nil =>
    cases h
    exact .nil
  | cons x xs ih =>
    rw [List.mapM_cons] at h
    cases hx : f x with
    | error e =>
      rw [hx] at h
      contradiction
    | ok y =>
      cases hxs : xs.mapM f with
      | error e =>
        rw [hx, hxs] at h
        contradiction
      | ok others =>
        rw [hx, hxs] at h
        cases h
        exact .cons hx (ih hxs)

private theorem exists_of_forall₂ {α β : Type} {R : α → β → Prop} {xs : List α} {ys : List β}
    (h : List.Forall₂ R xs ys) {y : β} (hy : y ∈ ys) : ∃ x ∈ xs, R x y := by
  obtain ⟨i, hi, rfl⟩ := List.getElem_of_mem hy
  have hlt : i < xs.length := by rw [h.length_eq]; exact hi
  exact ⟨xs[i], List.getElem_mem hlt, h.get hlt hi⟩

/-- A text has one piece at least. -/
theorem split_ne_nil (separator : List Char) (quote : Option Char) (skip : Nat)
    (text : List Char) : split separator quote skip text ≠ [] := by
  have hextend : ∀ c pieces, extend c pieces ≠ [] := by
    intro c pieces
    cases pieces <;> simp [extend]
  fun_induction split separator quote skip text with
  | case1 => simp
  | case2 _ _ _ _ ih => exact ih
  | case3 => simp
  | _ => simp [hextend]

/-- A group that was read has an atom. -/
theorem readGroup_ne_nil {text : List Char} {group : List Atom} (h : readGroup text = .ok group) :
    group ≠ [] := by
  have hlength := (forall₂_of_mapM h).length_eq
  rintro rfl
  exact split_ne_nil _ _ _ _ (List.length_eq_zero_iff.mp hlength)

/-- A condition that was read holds always, or its groups were read. -/
theorem exists_readGroup_of_read {text : String} (h : read text = .ok c) {group : List Atom}
    (hgroup : group ∈ c.groups) : ∃ piece, readGroup piece = .ok group := by
  unfold read at h
  split at h
  · cases h
    contradiction
  · cases hgroups : (split " OR ".toList none 0 text.toList).mapM readGroup with
    | error e =>
      rw [hgroups] at h
      contradiction
    | ok groups =>
      rw [hgroups] at h
      cases h
      obtain ⟨piece, -, hpiece⟩ := exists_of_forall₂ (forall₂_of_mapM hgroups) hgroup
      exact ⟨piece, hpiece⟩

/-- Every group of a condition has an atom. -/
theorem IsFormed.ne_nil (hc : c.IsFormed) : ∀ group ∈ c.groups, group ≠ [] := by
  intro group hgroup
  cases hc with
  | read h =>
    obtain ⟨piece, hpiece⟩ := exists_readGroup_of_read h hgroup
    exact readGroup_ne_nil hpiece
  | all atoms =>
    unfold Condition.all at hgroup
    split at hgroup
    · contradiction
    · next hne =>
      rw [List.mem_singleton.mp hgroup]
      exact fun h ↦ hne (List.isEmpty_iff.mpr h)

/-! ### The anchors -/

private theorem mem_foldl_seen {fields seen : List String} {field : String} :
    field ∈ fields.foldl (fun seen field ↦ if seen.contains field then seen else seen ++ [field])
        seen ↔
      field ∈ seen ∨ field ∈ fields := by
  induction fields generalizing seen with
  | nil => simp
  | cons other fields ih =>
    rw [List.foldl_cons, ih, List.mem_cons]
    split
    · next hseen =>
      constructor
      · rintro (h | h)
        · exact .inl h
        · exact .inr (.inr h)
      · rintro (h | rfl | h)
        · exact .inl h
        · exact .inl (List.contains_iff_mem.mp hseen)
        · exact .inr h
    · rw [List.mem_append, List.mem_singleton, or_assoc]

/-- The anchors are the fields that come first in a group. -/
theorem mem_anchors_iff {field : String} :
    field ∈ c.anchors ↔ ∃ a rest, a :: rest ∈ c.groups ∧ a.field = field := by
  rw [anchors, mem_foldl_seen, List.mem_filterMap]
  constructor
  · rintro (h | ⟨group, hgroup, h⟩)
    · contradiction
    · obtain ⟨a, ha, rfl⟩ := Option.map_eq_some_iff.mp h
      obtain ⟨rest, rfl⟩ := List.head?_eq_some_iff.mp ha
      exact ⟨a, rest, hgroup, rfl⟩
  · rintro ⟨a, rest, hgroup, rfl⟩
    exact .inr ⟨a :: rest, hgroup, rfl⟩

/-- An atom holds only of attributes that include its field. -/
theorem contains_of_evaluate {a : Atom} (h : a.evaluate attributes = true) :
    attributes.contains (Bytes.ofString a.field) = true := by
  rw [AttributeMap.contains_eq_isSome_get?]
  unfold Atom.evaluate at h
  cases hget : attributes.get? (Bytes.ofString a.field) with
  | none =>
    rw [hget] at h
    contradiction
  | some value => rfl

/-- A condition with groups holds exactly if one of its groups does. -/
theorem evaluate_iff (h : c.isEmpty = false) :
    c.evaluate attributes = true ↔
      ∃ group ∈ c.groups, ∀ a ∈ group, a.evaluate attributes = true := by
  rw [evaluate, h, Bool.false_or, List.any_eq_true]
  simp only [List.all_eq_true]

/-- Attributes of which a condition with groups holds include an anchor. -/
theorem IsFormed.exists_anchor (hc : c.IsFormed) (hne : c.isEmpty = false)
    (h : c.evaluate attributes = true) :
    ∃ field ∈ c.anchors, attributes.contains (Bytes.ofString field) = true := by
  obtain ⟨group, hgroup, hall⟩ := (evaluate_iff hne).mp h
  obtain ⟨a, rest, rfl⟩ := List.exists_cons_of_ne_nil (hc.ne_nil group hgroup)
  exact ⟨a.field, mem_anchors_iff.mpr ⟨a, rest, hgroup, rfl⟩,
    contains_of_evaluate (hall a List.mem_cons_self)⟩

/-! ### The order of groups and atoms -/

/-- The order of the groups does not matter to what the anchors are. -/
theorem mem_anchors_of_perm (h : c.groups.Perm d.groups) {field : String} :
    field ∈ c.anchors ↔ field ∈ d.anchors := by
  simp only [mem_anchors_iff, h.mem_iff]

/-- The order of the groups does not matter to what the condition holds of. -/
theorem evaluate_of_perm (h : c.groups.Perm d.groups) : c.evaluate = d.evaluate := by
  funext attributes
  rw [evaluate, evaluate, isEmpty, isEmpty, h.isEmpty_eq, h.any_eq]

/-- Two conditions whose groups have the same atoms, in any order. -/
def Reordered (c d : Condition) : Prop := List.Forall₂ List.Perm c.groups d.groups

/-- What was reordered can be put in order again. -/
theorem Reordered.symm (h : c.Reordered d) : d.Reordered c := by
  have hflip : List.Forall₂ (flip List.Perm) c.groups d.groups := h.imp fun _ _ ↦ List.Perm.symm
  exact hflip.flip

/-- A group of the one condition is a group of the other, in some order. -/
theorem Reordered.exists_perm (h : c.Reordered d) {group : List Atom} (hgroup : group ∈ d.groups) :
    ∃ other ∈ c.groups, other.Perm group := exists_of_forall₂ h hgroup

private theorem any_of_forall₂_perm {groups others : List (List Atom)}
    (h : List.Forall₂ List.Perm groups others) (p : Atom → Bool) :
    (groups.any fun group ↦ group.all p) = others.any fun group ↦ group.all p := by
  induction h with
  | nil => rfl
  | cons hgroup _ ih => rw [List.any_cons, List.any_cons, hgroup.all_eq, ih]

/-- The order of the atoms in the groups does not matter to what the condition holds of. -/
theorem Reordered.evaluate_eq (h : c.Reordered d) : c.evaluate = d.evaluate := by
  have hempty : c.isEmpty = d.isEmpty := by
    rw [isEmpty, isEmpty, Bool.eq_iff_iff, List.isEmpty_iff_length_eq_zero,
      List.isEmpty_iff_length_eq_zero, h.length_eq]
  funext attributes
  rw [evaluate, evaluate, hempty, any_of_forall₂_perm h]

/-! ### Fields -/

/-- No field begins with a `<`. -/
def OpensPlain (c : Condition) : Prop :=
  ∀ group ∈ c.groups, ∀ a ∈ group, (Bytes.ofString a.field).head? ≠ some Ascii.less

/-- Whether a field begins with a `<` is computed from the fields. -/
instance (c : Condition) : Decidable c.OpensPlain :=
  inferInstanceAs (Decidable (∀ group ∈ c.groups, ∀ a ∈ group, _ ≠ _))

/-- A field that was read from a text holds no `<`, at which a field ends. -/
theorem less_not_mem_of_readAtom {text : List Char} {a : Atom} (h : readAtom text = .ok a) :
    Ascii.less ∉ Bytes.ofString a.field := by
  have hfield : a.field = String.ofList
      (((Text.trim text).takeWhile (! endsField ·)).map Char.toLower) := by
    unfold readAtom at h
    dsimp only at h
    split at h
    · contradiction
    split at h
    · cases h
      rfl
    split at h
    · contradiction
    · next operator value _ =>
      cases hvalue : readValue (Text.trim value) with
      | error e =>
        rw [hvalue] at h
        contradiction
      | ok value =>
        rw [hvalue] at h
        cases h
        rfl
  rw [hfield, Bytes.ofString, String.toList_ofList, Bytes.ofChars_toLower, ← List.contains_iff_mem,
    Bytes.contains_lower rfl, List.contains_iff_mem, Bytes.ofChars, List.mem_flatMap]
  rintro ⟨c, hc, hmem⟩
  have hless : c = '<' := Char.toNat_inj.mp (Bytes.toNat_eq_of_mem_encode (by decide) hmem)
  have hends := List.all_eq_true.mp List.all_takeWhile c hc
  rw [hless] at hends
  contradiction

/-- No field of a condition that was read begins with a `<`. -/
theorem opensPlain_of_read {text : String} (h : read text = .ok c) : c.OpensPlain := by
  intro group hgroup a ha hless
  obtain ⟨piece, hpiece⟩ := exists_readGroup_of_read h hgroup
  obtain ⟨text, -, htext⟩ := exists_of_forall₂ (forall₂_of_mapM hpiece) ha
  exact less_not_mem_of_readAtom htext (List.mem_of_head? hless)

end MarkupSelect.Condition
