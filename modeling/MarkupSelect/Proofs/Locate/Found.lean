import MarkupSelect.Proofs.Locate.Candidates
import MarkupSelect.Proofs.Locate.Filter

/-!
# What the searches find

A search finds exactly the start tags that it comes upon and that its test accepts. Only the search
for an identifier stops at the first, so it finds all of them if there is no second.
-/

namespace MarkupSelect

namespace Verdict

/-- A test accepts what it is true of. -/
theorem ofBool_ne_skip_iff {keep : Bool} : ofBool keep ≠ .skip ↔ keep = true := by
  cases keep <;> simp [ofBool]

/-- A test never stops. -/
theorem ofBool_ne_keepAndStop (keep : Bool) : ofBool keep ≠ .keepAndStop := by
  cases keep <;> simp [ofBool]

end Verdict

namespace Region

variable {r : Region} {e : Nat × Bytes}

/-- Start tags of a region do not differ at one offset. -/
theorem consistent_of_starts {candidates : List (Nat × Bytes)}
    (h : ∀ e ∈ candidates, r.Starts e) : Matches.Consistent candidates := by
  intro a ha b hb hab
  exact (h a ha).eq_of_offset (h b hb) hab

/-- A search by name finds the start tags of the name that the test accepts. -/
theorem mem_findTags_iff {name : Bytes} {verdict : Bytes → Verdict}
    (hstop : ∀ tag, verdict tag ≠ .keepAndStop) :
    e ∈ (r.findTags name verdict).entries ↔ e ∈ r.tagsNamed name ∧ verdict e.2 ≠ .skip :=
  Filter.mem_run_iff (consistent_of_starts fun _ h ↦ (mem_tagsNamed h).1) hstop

/-- A search by an attribute finds the start tags with it that the test accepts. -/
theorem mem_findAttributes_iff {name : Bytes} {verdict : Bytes → Verdict}
    (hstop : ∀ tag, verdict tag ≠ .keepAndStop) :
    e ∈ (r.findAttributes name verdict).entries ↔ e ∈ r.tagsWith name ∧ verdict e.2 ≠ .skip :=
  Filter.mem_run_iff (consistent_of_starts fun _ h ↦ mem_tagsWith h) hstop

/-- A search for an identifier finds only start tags with this identifier. -/
theorem mem_findId {id : Bytes} (h : e ∈ (r.findId id).entries) :
    e ∈ r.tagsWith (Bytes.ofString "id") ∧
      (AttributeMap.ofMarkupValid e.2).value? (Bytes.ofString "id") = some id := by
  obtain ⟨hmem, hverdict⟩ := Filter.mem_run h
  refine ⟨hmem, ?_⟩
  by_cases hid : (AttributeMap.ofMarkupValid e.2).value? (Bytes.ofString "id") = some id
  · exact hid
  · rw [if_neg hid] at hverdict
    exact absurd rfl hverdict

/-- If one start tag at most has an identifier, the search for it finds that one. -/
theorem mem_findId_iff {id : Bytes}
    (hunique : ∀ a ∈ r.tagsWith (Bytes.ofString "id"), ∀ b ∈ r.tagsWith (Bytes.ofString "id"),
      (AttributeMap.ofMarkupValid a.2).value? (Bytes.ofString "id") = some id →
      (AttributeMap.ofMarkupValid b.2).value? (Bytes.ofString "id") = some id → a = b) :
    e ∈ (r.findId id).entries ↔
      e ∈ r.tagsWith (Bytes.ofString "id") ∧
        (AttributeMap.ofMarkupValid e.2).value? (Bytes.ofString "id") = some id := by
  constructor
  · exact mem_findId
  · rintro ⟨hmem, hid⟩
    apply (Filter.mem_run_iff_of_unique ?_).mpr
    · exact ⟨hmem, by rw [if_pos hid]; simp⟩
    · intro a ha b hb hva hvb
      apply hunique a ha b hb
      · by_cases h : (AttributeMap.ofMarkupValid a.2).value? (Bytes.ofString "id") = some id
        · exact h
        · exact absurd (if_neg h) hva
      · by_cases h : (AttributeMap.ofMarkupValid b.2).value? (Bytes.ofString "id") = some id
        · exact h
        · exact absurd (if_neg h) hvb

/-- A search for classes finds the start tags whose `class` has all of them, of which there must be
one. -/
theorem mem_findClass_iff {classes : List Bytes} :
    e ∈ (r.findClass classes).entries ↔
      e ∈ r.tagsWith (Bytes.ofString "class") ∧
        ∃ value, (AttributeMap.ofMarkupValid e.2).value? (Bytes.ofString "class") = some value ∧
          classes ≠ [] ∧ ∀ c ∈ classes, c ∈ Bytes.words value := by
  unfold findClass
  rw [mem_findAttributes_iff]
  · apply and_congr_right
    intro _
    cases (AttributeMap.ofMarkupValid e.2).value? (Bytes.ofString "class") with
    | none => simp
    | some value => simp [Verdict.ofBool_ne_skip_iff]
  · intro tag
    split
    · simp
    · exact Verdict.ofBool_ne_keepAndStop _

/-- A search for a condition finds the start tags with an anchor of it of which it holds. -/
theorem mem_findCondition_iff {c : Condition} :
    e ∈ (r.findCondition c).entries ↔
      (∃ field ∈ c.anchors, e ∈ r.tagsWith (Bytes.ofString field)) ∧
        c.evaluate (AttributeMap.ofMarkupValid e.2) = true := by
  have hone : ∀ field d,
      d ∈ (r.findAttributes (Bytes.ofString field) fun tag ↦
        .ofBool (c.evaluate (AttributeMap.ofMarkupValid tag))).entries ↔
      d ∈ r.tagsWith (Bytes.ofString field) ∧
        c.evaluate (AttributeMap.ofMarkupValid d.2) = true := by
    intro field d
    rw [mem_findAttributes_iff fun _ ↦ Verdict.ofBool_ne_keepAndStop _, Verdict.ofBool_ne_skip_iff]
  unfold findCondition
  rw [Matches.mem_foldl_union_iff (P := r.Starts)]
  · simp only [Matches.entries_empty, List.not_mem_nil, false_or, hone]
    constructor
    · rintro ⟨field, hfield, hmem, hc⟩
      exact ⟨⟨field, hfield, hmem⟩, hc⟩
    · rintro ⟨⟨field, hfield, hmem⟩, hc⟩
      exact ⟨field, hfield, hmem, hc⟩
  · intro a b ha hb hab
    exact ha.eq_of_offset hb hab
  · simp
  · intro field _ d hd
    exact mem_tagsWith ((hone field d).mp hd).1

end Region

end MarkupSelect
