import MarkupSelect.Proofs.Selector.Moves

/-!
# What a compiled selector asks for

Every alternative of a compiled selector has a step, every step asks for something, and the names of
tags and attributes are names in lower case. The builder keeps this of all that it has read, move by
move.
-/

namespace MarkupSelect

/-! ### Strings in lower case -/

namespace Bytes

/-- The encoding of a string is its own lower case. -/
def IsLowered (s : String) : Prop := (ofString s).lower = ofString s

/-- Whether a string is lowered is computed from its encoding. -/
instance (s : String) : Decidable (IsLowered s) := inferInstanceAs (Decidable (_ = _))

/-- A name in a selector is in lower case. -/
theorem isLowered_of_isName {name : String} (h : Selector.IsName name) : IsLowered name := by
  have hsame : ∀ c ∈ name.toList, c.toLower = id c :=
    fun c hc ↦ Text.toLower_of_not_isUpper (h.notUpper c hc)
  rw [IsLowered, ofString, ← ofChars_toLower, List.map_congr_left hsame, List.map_id]

end Bytes

/-! ### Steps -/

/-- A step as it is read: it asks for something, by names in lower case. -/
structure Step.IsRead (s : Step) : Prop where
  asks : s.tag.isSome ∨ s.predicates ≠ []
  tag_lowered : ∀ name ∈ s.tag, Bytes.IsLowered name
  names_lowered : ∀ p ∈ s.predicates, Bytes.IsLowered p.name

/-- An alternative as it is read: there are steps, each of which is read. -/
structure Alternative.IsRead (a : Alternative) : Prop where
  ne_nil : a ≠ []
  steps : ∀ s ∈ a, s.IsRead

/-- A step as it is read, in full: it asks for something, by names and by predicates that are
sound. -/
structure Step.IsSound (s : Step) : Prop where
  asks : s.tag.isSome ∨ s.predicates ≠ []
  tag : ∀ name ∈ s.tag, Selector.IsName name
  predicates : ∀ p ∈ s.predicates, p.IsSound

/-- A sound step asks for names in lower case. -/
theorem Step.IsSound.isRead {s : Step} (h : s.IsSound) : s.IsRead :=
  ⟨h.asks, fun name hname ↦ Bytes.isLowered_of_isName (h.tag name hname),
    fun p hp ↦ Bytes.isLowered_of_isName (h.predicates p hp).name⟩

/-- An alternative as it is read, in full: there are steps, all of them sound. -/
structure Alternative.IsSound (a : Alternative) : Prop where
  ne_nil : a ≠ []
  steps : ∀ s ∈ a, s.IsSound

namespace Builder

/-- What a builder has read so far is as steps and alternatives have it. -/
structure IsSound (b : Builder) : Prop where
  alternatives : ∀ a ∈ b.alternatives, a.IsSound
  steps : ∀ s ∈ b.steps, s.IsSound
  tag : ∀ name ∈ b.tag, Selector.IsName name
  predicates : ∀ p ∈ b.predicates, p.IsSound

variable {b c : Builder}

private theorem isSound_empty : empty.IsSound := by
  constructor <;> simp [empty]

/-! ### Ends of steps and alternatives -/

private theorem isSound_of_mem_classPredicates {classes : List String} {p : Predicate}
    (h : p ∈ classPredicates classes) : p.IsSound := by
  have hname : p.name = "class" ∧ p.operator ≠ .present := by
    unfold classPredicates at h
    split at h
    · contradiction
    · rw [List.mem_singleton.mp h]
      exact ⟨rfl, nofun⟩
    · rw [List.mem_singleton.mp h]
      exact ⟨rfl, nofun⟩
  refine ⟨?_, fun hpresent ↦ absurd hpresent hname.2⟩
  rw [hname.1]
  exact ⟨by decide, List.all_iff_forall_prop.mp (by decide),
    List.all_iff_forall_prop.mp (by decide)⟩

private theorem asks_of_not_isIdle (h : ¬ b.IsIdle) :
    b.tag.isSome ∨ b.predicates ++ classPredicates b.classes ≠ [] := by
  by_cases htag : b.tag.isSome = true
  · exact .inl htag
  · refine .inr fun hnone ↦ h ?_
    rw [List.append_eq_nil_iff] at hnone
    exact ⟨by simpa using htag, hnone.1, eq_nil_of_classPredicates hnone.2⟩

private theorem IsSound.endStep (h : b.IsSound) : b.endStep.IsSound := by
  by_cases hidle : b.IsIdle
  · rwa [hidle.endStep]
  rw [endStep_of_not_isIdle hidle]
  refine ⟨h.alternatives, ?_, by simp, by simp⟩
  rw [List.forall_mem_append]
  refine ⟨h.steps, List.forall_mem_singleton.mpr ⟨asks_of_not_isIdle hidle, h.tag, ?_⟩⟩
  rw [List.forall_mem_append]
  exact ⟨h.predicates, fun p ↦ isSound_of_mem_classPredicates⟩

private theorem IsSound.endAlternative (h : b.IsSound) (hc : b.endAlternative = .ok c) :
    c.IsSound := by
  obtain ⟨-, hsteps, rfl⟩ := endAlternative_eq_ok_iff.mp hc
  have hstep := h.endStep
  refine ⟨?_, List.forall_mem_nil _, hstep.tag, hstep.predicates⟩
  rw [List.forall_mem_append]
  exact ⟨h.alternatives, List.forall_mem_singleton.mpr ⟨hsteps, hstep.steps⟩⟩

/-! ### Runs -/

/-- A move keeps what has been read sound. -/
theorem IsSound.move (h : Move b c) (hb : b.IsSound) : c.IsSound := by
  cases h with
  | read => exact ⟨hb.alternatives, hb.steps, hb.tag, hb.predicates⟩
  | tag hname =>
    refine ⟨hb.alternatives, hb.steps, ?_, hb.predicates⟩
    intro name hmem
    rw [← Option.some.inj hmem]
    exact hname.lowered
  | predicate hp =>
    refine ⟨hb.alternatives, hb.steps, hb.tag, ?_⟩
    rw [List.forall_mem_append]
    exact ⟨hb.predicates, List.forall_mem_singleton.mpr hp⟩
  | className => exact ⟨hb.alternatives, hb.steps, hb.tag, hb.predicates⟩
  | step => exact hb.endStep
  | child => exact ⟨hb.alternatives, hb.steps, hb.tag, hb.predicates⟩
  | alternative hc => exact hb.endAlternative hc

end Builder

/-- When there are no more lexemes, all alternatives are sound. -/
theorem Builder.isSound_of_finish {b : Builder} (hb : b.IsSound) (hreading : b.reading.IsSound)
    {alternatives : List Alternative} (h : b.finish = .ok alternatives) :
    ∀ a ∈ alternatives, a.IsSound := by
  rw [finish_eq] at h
  obtain ⟨c, hc, hend⟩ := exists_of_bind h
  obtain ⟨d, hd, hresult⟩ := exists_of_bind hend
  have hsettled := (moves_of_settle hreading hc).keep IsSound.move hb
  rw [← Except.ok.inj hresult]
  exact (hsettled.endAlternative hd).alternatives

/-- All alternatives that a text is read as are sound. -/
theorem Selector.isSound_of_alternativesOf {text : List Char} {alternatives : List Alternative}
    (h : alternativesOf text = .ok alternatives) : ∀ a ∈ alternatives, a.IsSound := by
  obtain ⟨b, hfeed, hfinish⟩ := exists_of_bind h
  have hempty : Builder.empty.reading.IsSound := trivial
  have hmoves := Builder.moves_of_feedAll hempty (fun l ↦ Lexeme.isSound_of_mem_ofText) hfeed
  exact Builder.isSound_of_finish (hmoves.keep Builder.IsSound.move Builder.isSound_empty)
    (hmoves.keep Builder.Move.isSound_reading hempty) hfinish

/-- All alternatives of a compiled selector are sound. -/
theorem Selector.isSound_of_compile {text : String} {s : Selector} (h : compile text = .ok s) :
    ∀ a ∈ s.alternatives, a.IsSound := by
  obtain ⟨_, core, _, -, -, -, -, hread⟩ := exists_core_of_compile h
  exact isSound_of_alternativesOf hread

/-- All alternatives of a compiled selector are read. -/
theorem Selector.isRead_of_compile {text : String} {s : Selector} (h : compile text = .ok s) :
    ∀ a ∈ s.alternatives, a.IsRead := by
  intro a ha
  have hsound := isSound_of_compile h a ha
  exact ⟨hsound.ne_nil, fun step hstep ↦ (hsound.steps step hstep).isRead⟩

end MarkupSelect
